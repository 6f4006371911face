import DesignAtlas.Proofs.Token.Sealed

/-! # Tokens without places and contents

The skeleton of a token is its payload without the content of a string literal. Words and ranges at
the front of tokens are cut off alike from tokens with the same skeletons (`Token.takeWord_map`,
`Token.takeRanges?_map`). A string literal without an end goes on through what is written behind it,
any other text ends before a newline; in both cases the tokens of the text keep their skeletons
(`Token.scanFrom_behind`). -/

namespace DesignAtlas

/-- The payload without the content of a string literal. -/
def Payload.skeleton : Payload → Payload
  | .string _ => .string ""
  | p => p

namespace Token

/-- What the token is, but for the content of a string literal. -/
def skeleton (t : Token) : Payload := t.payload.skeleton

theorem identifier?_of_skeleton {t u : Token} (h : u.skeleton = t.skeleton) :
    u.identifier? = t.identifier? := by
  have key : ∀ t : Token, t.identifier? = t.skeleton.identifier? := by
    rintro ⟨p, s⟩
    cases p <;> rfl
  rw [key, key, h]

theorem isSymbol_of_skeleton {t u : Token} (h : u.skeleton = t.skeleton) (s : Symbol) :
    u.isSymbol s = t.isSymbol s := by
  have key : ∀ t : Token, t.isSymbol s = (t.skeleton == .symbol s) := by
    rintro ⟨p, q⟩
    cases p <;> rfl
  rw [key, key, h]

theorem map_skeleton (ts : List Token) :
    ts.map skeleton = (ts.map Token.payload).map Payload.skeleton := by
  rw [List.map_map]
  rfl

theorem map_skeleton_scanFrom (p : Position) (t : Text) :
    (scanFrom p t).map skeleton = (scan t).map skeleton := by
  rw [map_skeleton, map_payload_scanFrom, ← map_skeleton]

theorem map_skeleton_scan_newline {t : Text} (h : t.Terminated) :
    (scan (t ++ ['\n'])).map skeleton = (scan t).map skeleton := by
  rw [map_skeleton, map_skeleton, Text.map_payload_scan_newline h]

/-! ### Words and ranges -/

section Map

variable {f : Token → Token} (hf : ∀ t, (f t).skeleton = t.skeleton)
include hf

theorem takeWord_map {accept : String → List Token → Bool}
    (haccept : ∀ w us, accept w (us.map f) = accept w us) (ts : List Token) :
    takeWord accept (ts.map f) = ((takeWord accept ts).1, (takeWord accept ts).2.map f) := by
  cases ts with
  | nil => rfl
  | cons t ts =>
    rw [List.map_cons, takeWord, takeWord, identifier?_of_skeleton (hf t)]
    cases t.identifier? with
    | none => rfl
    | some w =>
      simp only [haccept]
      split <;> rfl

theorem takeRanges?_map : ∀ (depth : Nat) (ts : List Token),
    takeRanges? depth (ts.map f) =
      (takeRanges? depth ts).map fun r => (r.1.map f, r.2.map f)
  | depth, [] => by
    rw [List.map_nil, takeRanges?]
    split <;> rfl
  | depth, t :: ts => by
    have ih := fun d => takeRanges?_map d ts
    have hnext : ∀ d, (takeRanges? d (ts.map f)).map (fun r => (f t :: r.1, r.2)) =
        ((takeRanges? d ts).map fun r => (t :: r.1, r.2)).map fun r => (r.1.map f, r.2.map f) := by
      intro d
      rw [ih]
      cases takeRanges? d ts <;> rfl
    unfold takeRanges?
    simp only [List.map_cons, isSymbol_of_skeleton (hf t), hnext]
    split
    · rfl
    · cases depth <;> rfl

end Map

end Token

/-! ### String literals and what follows them -/

namespace Lexeme

theorem splitString_of_no_quote {u : Text} (hu : '\x22' ∉ u) : (splitString u).2 = [] := by
  fun_induction splitString u with
  | case1 => rfl
  | case2 => simp at hu
  | case3 => rfl
  | case4 => simp at hu
  | case5 d t hc ih => exact ih fun h => hu (by simp [h])
  | case6 c d t hc hc' ih => exact ih fun h => hu (List.mem_cons_of_mem c h)

/-- **A string literal without an end** goes on up to the next quote. -/
theorem splitString_append_of_no_quote {t u : Text} (ht : (splitString t).2 = [])
    (hu : '\x22' ∉ u) : (splitString (t ++ u)).2 = [] := by
  fun_induction splitString t with
  | case1 => exact splitString_of_no_quote hu
  | case2 => cases ht
  | case3 c hc => exact splitString_of_no_quote (by simp [hu, Ne.symm hc])
  | case4 => cases ht
  | case5 d t hc ih =>
    rw [List.cons_append, List.cons_append, splitString, if_neg hc, if_pos rfl]
    exact ih ht
  | case6 c d t hc hc' ih =>
    rw [List.cons_append, List.cons_append, splitString, if_neg hc, if_neg hc', ← List.cons_append]
    exact ih ht

end Lexeme

namespace Glyph

theorem slice_of_mem_place {t : Token} : ∀ {gs : List Glyph} {a : Text} (c : Text),
    t ∈ place (Position.start.advance a) gs →
      ∃ g ∈ gs, t.payload = g.payload ∧ t.span.slice (a ++ spell gs ++ c) = g.text
  | g :: gs, a, c, h => by
    rw [place_cons, ← Position.advance_append] at h
    rcases List.mem_cons.mp h with rfl | h
    · refine ⟨g, by simp, rfl, ?_⟩
      have := Span.slice_append (a ++ g.gap) g.text (spell gs ++ c)
      simpa [token, spelling] using this
    · obtain ⟨g', hg', hp, hs⟩ := slice_of_mem_place c h
      refine ⟨g', by simp [hg'], hp, ?_⟩
      rwa [List.append_assoc a, ← spell_cons] at hs

/-- A string literal without an end, as it is read. -/
theorem Reads.of_isOpen {g : Glyph} {rest : Text} (h : g.Reads rest)
    (hopen : g.payload.isOpen g.text = true) : ∃ content cs, g.payload = .string content ∧
      g.text = '\x22' :: cs ∧ (Lexeme.splitString cs).2 = [] ∧ rest = [] := by
  obtain ⟨c, cs, ht, -, hr⟩ := h.lexeme
  unfold Payload.isOpen at hopen
  split at hopen
  · rename_i content hp
    rw [ht, beq_iff_eq] at hopen
    obtain ⟨rfl, hcs⟩ := List.cons.inj hopen
    rw [Lexeme.recognise_quote, hp, ht, hcs] at hr
    simp only [Lexeme.string, Lexeme.mk.injEq, Payload.string.injEq] at hr
    obtain ⟨hcontent, htext, hrest⟩ := hr
    have hlist := congrArg String.toList hcontent
    rw [String.toList_ofList] at hlist
    -- the literal takes no quote, so none is left behind its content
    have hempty : (Lexeme.splitString (content.toList ++ rest)).2 = [] := by
      rw [hlist] at htext
      simpa [List.take_eq_nil_iff] using htext
    rw [hempty] at hrest
    obtain rfl : rest = [] := hrest.symm
    rw [List.append_nil, ← hcs] at hempty
    exact ⟨content, cs, hp, ht, hempty, rfl⟩
  · cases hopen

/-- A string literal with something behind it has its end. -/
theorem Reads.isOpen {g : Glyph} {rest : Text} (h : g.Reads rest) (hne : rest ≠ []) :
    g.payload.isOpen g.text = false := by
  by_contra hopen
  obtain ⟨-, -, -, -, -, rfl⟩ := h.of_isOpen (Bool.not_eq_false _ ▸ hopen)
  exact hne rfl

/-- A string literal without an end takes all that is written behind it. -/
theorem Reads.extend_open {g : Glyph} (h : g.Reads []) (hopen : g.payload.isOpen g.text = true)
    {u : Text} (hu : '\x22' ∉ u) :
    ∃ g' : Glyph, g'.Reads [] ∧ g'.gap = g.gap ∧ g'.text = g.text ++ u ∧
      g'.payload.skeleton = g.payload.skeleton := by
  obtain ⟨content, cs, hp, ht, hsplit, -⟩ := h.of_isOpen hopen
  have hsplit' := Lexeme.splitString_append_of_no_quote hsplit hu
  have happ := Lexeme.splitString_append (cs ++ u)
  rw [hsplit', List.append_nil] at happ
  refine ⟨⟨g.gap, .string (String.ofList (cs ++ u)), '\x22' :: (cs ++ u)⟩,
    ⟨h.blank, '\x22', cs ++ u, rfl, by decide, ?_⟩, rfl, by simp [ht], by rw [hp]; rfl⟩
  rw [List.append_nil, Lexeme.recognise_quote]
  simp [Lexeme.string, hsplit', happ]

end Glyph

namespace Token

/-- **What is written behind a newline** leaves the tokens before it as they are: it is scanned for
itself, or a string literal without an end takes all of it. -/
theorem scanFrom_behind (t : Text) {u : Text} (hu : '\x22' ∉ u) (p : Position) :
    ∃ ts us, scanFrom p (t ++ '\n' :: u) = ts ++ us ∧
      ts.map skeleton = (scan t).map skeleton ∧
      (us = [] ∨ us = scanFrom (p.advance (t ++ ['\n'])) u) := by
  by_cases ht : t.Terminated
  · refine ⟨scanFrom p (t ++ ['\n']), scanFrom (p.advance (t ++ ['\n'])) u, ?_, ?_, Or.inr rfl⟩
    · rw [← Text.sealed_newline ht, List.append_assoc, List.singleton_append]
    · rw [map_skeleton_scanFrom, map_skeleton_scan_newline ht]
  -- a literal without an end is the last token, and nothing stands behind it
  unfold Text.Terminated at ht
  push Not at ht
  obtain ⟨tok, htok, hopen⟩ := ht
  rw [ne_eq, Bool.not_eq_false] at hopen
  obtain ⟨gs, tail, rfl, htail, hall⟩ := Glyph.exists_layout t
  rw [scan, Glyph.scanFrom_spell_blank hall htail] at htok ⊢
  obtain ⟨g, hg, hp, hs⟩ := Glyph.slice_of_mem_place (a := []) tail htok
  rw [List.nil_append] at hs
  rw [hp, hs] at hopen
  obtain ⟨before, after, rfl⟩ := List.append_of_mem hg
  obtain ⟨hbefore, hreads, -⟩ := Glyph.readAll_append.mp hall
  obtain ⟨-, -, -, -, -, hnil⟩ := hreads.of_isOpen hopen
  obtain ⟨hafter, rfl⟩ := List.append_eq_nil_iff.mp hnil
  obtain rfl : after = [] := by
    cases after with
    | nil => rfl
    | cons g' after =>
      obtain ⟨c, cs, htext, -, -⟩ := (Glyph.readAll_append.mp hall).2.2.1.lexeme
      simp [Glyph.spelling, htext] at hafter
  rw [hnil] at hreads
  have hu' : '\x22' ∉ '\n' :: u := by simp [hu]
  obtain ⟨g', hreads', hgap, htext, hskeleton⟩ := hreads.extend_open hopen hu'
  have hne : Glyph.spell [g] ≠ [] := by
    obtain ⟨c, cs, htext, -, -⟩ := hreads.lexeme
    simp [Glyph.spelling, htext]
  have hall' : Glyph.ReadAll (before ++ [g']) [] := by
    refine Glyph.readAll_append.mpr ⟨?_, hreads', trivial⟩
    have := Glyph.readAll_append_right (by simpa using hbefore) (by simpa using hne) ('\n' :: u)
    simpa [Glyph.spelling, hgap, htext] using this
  have hspell : Glyph.spell (before ++ [g]) ++ [] ++ '\n' :: u =
      Glyph.spell (before ++ [g']) ++ [] := by
    simp [Glyph.spelling, hgap, htext]
  refine ⟨Glyph.place p (before ++ [g']), [], ?_, ?_, Or.inl rfl⟩
  · rw [hspell, Glyph.scanFrom_spell_blank hall' blank_nil, List.append_nil]
  · rw [map_skeleton, map_skeleton, Glyph.map_payload_place, Glyph.map_payload_place]
    simp [hskeleton]

end Token

end DesignAtlas
