import DesignAtlas.Proofs.ModuleDecl.Runs
import DesignAtlas.Proofs.Token.Listed
import DesignAtlas.Proofs.Token.Places
import DesignAtlas.Proofs.Token.Shorten

/-! # The tokens of a slice

A slice of a text that begins and ends at tokens is scanned as a text of its own. It may begin at the
start of a token and end at the limit of one, or stand between two tokens. The tokens found are those
of the whole text, each as many places further to the front as the slice begins behind the front,
unless they end with a bare apostrophe (`scan_slices`). What a declaration has between parentheses
never ends so, because the closing parenthesis stands behind it. -/

namespace DesignAtlas

/-- The token with its ends moved. -/
def Token.relocate (f : Position → Position) (t : Token) : Token :=
  ⟨t.payload, t.span.relocate f⟩

namespace Glyph

theorem map_payload_place : ∀ (p : Position) (gs : List Glyph),
    (place p gs).map Token.payload = gs.map Glyph.payload
  | _, [] => rfl
  | p, g :: gs => by rw [place_cons, List.map_cons, List.map_cons, map_payload_place]; rfl

/-- Glyphs that are written further behind give the same tokens moved. -/
theorem place_relocate (q : Position) : ∀ {p : Position}, p.Counted → ∀ gs : List Glyph,
    place (Position.behind q p) gs = (place p gs).map (Token.relocate (Position.behind q))
  | _, _, [] => rfl
  | p, hp, g :: gs => by
    rw [place_cons, place_cons, List.map_cons, Position.behind_advance hp,
      place_relocate q (hp.advance _) gs]
    simp only [token, Position.behind_advance hp, Token.relocate, Span.relocate]

theorem place_eq_relocate (q : Position) (gs : List Glyph) :
    place q gs = (place Position.start gs).map (Token.relocate (Position.behind q)) :=
  place_relocate q Position.counted_start gs

/-! ### Glyphs at the end of a text -/

/-- An apostrophe at the end of a text is a character by itself. -/
theorem reads_apostrophe {gap : Text} (hgap : ∀ c ∈ gap, isBlank c = true) :
    (Glyph.mk gap (.other '\x27') ['\x27']).Reads [] :=
  ⟨hgap, '\x27', [], rfl, by decide, rfl⟩

/-- Glyphs that end with a bare apostrophe. -/
theorem exists_last_apostrophe {gs : List Glyph} (h : ¬ Payload.Settled (gs.map Glyph.payload)) :
    ∃ init g, gs = init ++ [g] ∧ g.payload = Payload.bareApostrophe := by
  rw [Payload.Settled, not_not] at h
  rcases List.eq_nil_or_concat gs with rfl | ⟨init, g, rfl⟩
  · cases h
  · exact ⟨init, g, List.concat_eq_append, by simpa using h⟩

theorem Reads.bareApostrophe {g : Glyph} {rest : Text} (h : g.Reads rest)
    (hg : g.payload = Payload.bareApostrophe) : g.text = ['\x27'] ∧ rest.head? = some '$' := by
  obtain ⟨c, cs, ht, -, hr⟩ := h.lexeme
  rw [ht, hg] at hr
  obtain ⟨rfl, rfl, hrest⟩ := Lexeme.recognise_bareApostrophe hr
  exact ⟨ht, hrest⟩

/-- A symbol does not stand behind a bare apostrophe. -/
theorem settled_of_symbol {gs : List Glyph} {g : Glyph} {s : Symbol} {post : Text}
    (hall : ReadAll gs (g.spelling ++ post)) (hg : g.Reads post) (hs : g.payload = .symbol s) :
    Payload.Settled (gs.map Glyph.payload) := by
  by_contra hlast
  obtain ⟨init, l, rfl, hl⟩ := exists_last_apostrophe hlast
  obtain ⟨-, hl'⟩ := (readAll_append.mp hall).2.1.bareApostrophe hl
  rw [spelling, hg.symbol_text hs] at hl'
  -- a dollar sign is neither blank nor a symbol
  cases hgap : g.gap with
  | nil =>
    rw [hgap] at hl'
    have : s.char = '$' := by simpa using hl'
    cases s <;> cases this
  | cons c gap =>
    rw [hgap] at hl'
    obtain rfl : c = '$' := by simpa using hl'
    have := hg.blank '$' (by simp [hgap])
    cases this

/-- **Glyphs and blanks behind them are scanned as a text of their own** exactly when they do not end
with a bare apostrophe. -/
theorem scan_spell_iff {gs : List Glyph} {tail u : Text} (h : ReadAll gs (tail ++ u))
    (hb : ∀ c ∈ tail, isBlank c = true) (q : Position) :
    (Token.scan (spell gs ++ tail)).map (Token.relocate (Position.behind q)) = place q gs ↔
      Payload.Settled (gs.map Glyph.payload) := by
  constructor
  · intro hscan
    by_contra hlast
    -- the last glyph is an apostrophe with a dollar sign behind it in the whole text
    obtain ⟨init, g, rfl, hg⟩ := exists_last_apostrophe hlast
    obtain ⟨hinit, hreads, -⟩ := readAll_append.mp h
    obtain ⟨htext, hdollar⟩ := hreads.bareApostrophe hg
    obtain rfl : tail = [] := by
      cases tail with
      | nil => rfl
      | cons b tail =>
        obtain rfl : b = '$' := by simpa using hdollar
        have := hb '$' (by simp)
        cases this
    have hlone : ReadAll (init ++ [⟨g.gap, .other '\x27', ['\x27']⟩]) [] := by
      refine readAll_append.mpr ⟨readAll_shorten (u := u) ?_ (Or.inl ?_),
        reads_apostrophe hreads.blank, trivial⟩
      · simpa [spelling, htext] using hinit
      · simp [spelling]
    have hspell : spell (init ++ [g]) = spell (init ++ [⟨g.gap, .other '\x27', ['\x27']⟩]) := by
      simp [spelling, htext]
    rw [hspell, Token.scan, scanFrom_spell_blank hlone hb, ← place_eq_relocate] at hscan
    have := congrArg (List.map Token.payload) hscan
    simp [map_payload_place, hg, Payload.bareApostrophe] at this
  · intro hsettled
    have hall : ReadAll gs tail := readAll_shorten h (Or.inr hsettled)
    rw [Token.scan, scanFrom_spell_blank hall hb, ← place_eq_relocate]

end Glyph

namespace Token

variable {source : Text} {a b t : Token} {mid ts : List Token}

/-- The tokens do not end with a bare apostrophe. -/
def Settled (ts : List Token) : Prop := Payload.Settled (ts.map Token.payload)

instance (ts : List Token) : Decidable (Settled ts) :=
  inferInstanceAs (Decidable (Payload.Settled _))

/-! ### The two kinds of slices -/

/-- From the start of a token to the limit of the same or a later one. -/
theorem scan_sourceOf_iff (h : t :: ts <:+: scan source) :
    (scan (sourceOf source (t :: ts))).map (relocate (Position.behind t.span.start)) = t :: ts ↔
      Settled (t :: ts) := by
  obtain ⟨pre, gs, post, rfl, hgs, hr⟩ := exists_layout_of_infix h
  cases gs with
  | nil => cases hgs
  | cons g gs =>
    have hpayload := Glyph.map_payload_place (Position.start.advance pre) (g :: gs)
    rw [hgs] at hpayload
    have hsource := Glyph.sourceOf_place pre post g gs
    rw [hgs] at hsource
    -- the slice begins with the characters of the first glyph
    have hall : Glyph.ReadAll (⟨[], g.payload, g.text⟩ :: gs) ([] ++ post) :=
      ⟨⟨by simp, hr.1.lexeme⟩, hr.2⟩
    have hplace : Glyph.place t.span.start (⟨[], g.payload, g.text⟩ :: gs) = t :: ts := by
      rw [Glyph.place_cons, List.cons.injEq] at hgs ⊢
      obtain ⟨rfl, rfl⟩ := hgs
      simp [Glyph.token, Glyph.spelling]
    have hiff := Glyph.scan_spell_iff hall (by simp) t.span.start
    rw [hplace, List.append_nil, Glyph.spell_cons] at hiff
    rw [hsource, Settled, hpayload]
    exact hiff

/-- The text between two tokens as glyphs and blanks. -/
theorem exists_layout_between (h : a :: (mid ++ [b]) <:+: scan source) :
    ∃ (gs : List Glyph) (g : Glyph) (post : Text),
      Span.slice ⟨a.span.limit, b.span.start⟩ source = Glyph.spell gs ++ g.gap ∧
      Glyph.place a.span.limit gs = mid ∧ g.payload = b.payload ∧
      Glyph.ReadAll gs (g.spelling ++ post) ∧ g.Reads post := by
  obtain ⟨pre, gs, post, rfl, hgs, hr⟩ := exists_layout_of_infix h
  cases gs with
  | nil => cases hgs
  | cons g gs =>
    rw [Glyph.place_cons, List.cons.injEq] at hgs
    obtain ⟨rfl, hgs⟩ := hgs
    obtain ⟨ms, bs, rfl, hmid, hb⟩ := Glyph.place_eq_append hgs
    cases bs with
    | nil => cases hb
    | cons g' bs =>
      rw [Glyph.place_cons, List.cons.injEq] at hb
      obtain ⟨rfl, hbs⟩ := hb
      obtain rfl : bs = [] := by
        cases bs with
        | nil => rfl
        | cons => cases hbs
      obtain ⟨hms, hg', -⟩ := Glyph.readAll_append.mp hr.2
      refine ⟨ms, g', post, ?_, hmid, rfl, by simpa using hms, hg'⟩
      have hspan := Span.slice_append (pre ++ g.spelling) (Glyph.spell ms ++ g'.gap)
        (g'.text ++ post)
      have htext : pre ++ g.spelling ++ (Glyph.spell ms ++ g'.gap) ++ (g'.text ++ post) =
          pre ++ Glyph.spell (g :: (ms ++ [g'])) ++ post := by
        simp [Glyph.spelling]
      rw [htext] at hspan
      rw [← hspan]
      simp

/-- Between two tokens. -/
theorem scan_between_iff (h : a :: (mid ++ [b]) <:+: scan source) :
    (scan (Span.slice ⟨a.span.limit, b.span.start⟩ source)).map
        (relocate (Position.behind a.span.limit)) = mid ↔ Settled mid := by
  obtain ⟨gs, g, post, hslice, hmid, -, hall, hg⟩ := exists_layout_between h
  have hpayload := Glyph.map_payload_place a.span.limit gs
  rw [hmid] at hpayload
  rw [Glyph.spelling, List.append_assoc] at hall
  have hiff := Glyph.scan_spell_iff hall hg.blank a.span.limit
  rw [hmid] at hiff
  rw [hslice, Settled, hpayload]
  exact hiff

theorem settled_of_symbol {s : Symbol} (h : a :: (mid ++ [b]) <:+: scan source)
    (hb : b.payload = .symbol s) : Settled mid := by
  obtain ⟨gs, g, post, -, hmid, hg, hall, hreads⟩ := exists_layout_between h
  have hpayload := Glyph.map_payload_place a.span.limit gs
  rw [hmid] at hpayload
  rw [Settled, hpayload]
  exact Glyph.settled_of_symbol hall hreads (hg.trans hb)

/-- **The tokens in parentheses** are those of the text between the parentheses. -/
theorem scan_group {g : Group} (h : g.tokens <:+: scan source) :
    (scan (g.between.slice source)).map (relocate (Position.behind g.opening.limit)) = g.inner :=
  (scan_between_iff h).mpr (settled_of_symbol h rfl)

/-- **Scanning goes with slicing.** A slice from the start of a token to the limit of a token, and a
slice between two tokens, is scanned by itself as it is in its place, exactly when its tokens do not
end with a bare apostrophe. So the parameter block and the pin list of every declaration have the
tokens that stand between their parentheses. -/
theorem scan_slices (source : Text) :
    (∀ t ts, t :: ts <:+: scan source →
      ((scan (sourceOf source (t :: ts))).map (relocate (Position.behind t.span.start)) = t :: ts ↔
        Settled (t :: ts))) ∧
    (∀ a mid b, a :: (mid ++ [b]) <:+: scan source →
      ((scan (Span.slice ⟨a.span.limit, b.span.start⟩ source)).map
          (relocate (Position.behind a.span.limit)) = mid ↔ Settled mid)) ∧
    ∀ d ∈ ModuleDecl.ofSource source, ∃ r : DeclRun, r.tokens <:+: scan source ∧ r.decl = d ∧
      (∀ p ∈ r.parameters, ∃ block, d.parameterBlock? source = some block ∧
        (scan block).map (relocate (Position.behind p.2.opening.limit)) = p.2.inner) ∧
      ∀ g ∈ r.pins,
        (scan (d.pinList source)).map (relocate (Position.behind g.opening.limit)) = g.inner := by
  refine ⟨fun _ _ => scan_sourceOf_iff, fun _ _ _ => scan_between_iff, fun d hd => ?_⟩
  obtain ⟨r, hrun, rfl⟩ := ModuleDecl.exists_run hd
  refine ⟨r, hrun, rfl, fun p hp => ?_, fun g hg => ?_⟩
  · have hinfix := r.parameterTokens_infix.trans hrun
    rw [Option.mem_def] at hp
    rw [hp] at hinfix
    refine ⟨p.2.between.slice source, ?_, ?_⟩
    · simp [ModuleDecl.parameterBlock?, DeclRun.decl, hp]
    · exact scan_group ((List.suffix_cons _ _).isInfix.trans hinfix)
  · have hinfix := r.pinTokens_infix.trans hrun
    rw [Option.mem_def] at hg
    rw [hg] at hinfix
    have hlist : r.decl.pinList source = g.between.slice source := by
      simp [ModuleDecl.pinList, DeclRun.decl, hg]
    rw [hlist]
    exact scan_group hinfix

/-- An apostrophe before a dollar sign: alone it is scanned as a character, with the dollar sign
behind it as the number that it is in the parameter block. -/
theorem scan_slices_apostrophe :
    let source : Text := "module m #(\x27$) (a);endmodule".toList
    let cols : Nat → Nat → Span := fun i j => ⟨⟨i, 1, i + 1⟩, ⟨j, 1, j + 1⟩⟩
    let apostrophe : Token := ⟨.number "\x27", cols 11 12⟩
    let dollar : Token := ⟨.identifier "$", cols 12 13⟩
    [apostrophe] <:+: scan source ∧ [apostrophe, dollar] <:+: scan source ∧
    (scan (sourceOf source [apostrophe])).map (relocate (Position.behind (cols 11 12).start)) ≠
      [apostrophe] ∧
    (scan (sourceOf source [apostrophe, dollar])).map
      (relocate (Position.behind (cols 11 12).start)) = [apostrophe, dollar] := by
  intro source cols apostrophe dollar
  have hscan : scan source = [⟨.keyword .module, cols 0 6⟩, ⟨.identifier "m", cols 7 8⟩,
      ⟨.symbol .hash, cols 9 10⟩, ⟨.symbol .openParen, cols 10 11⟩] ++ [apostrophe, dollar] ++
      [⟨.symbol .closeParen, cols 13 14⟩, ⟨.symbol .openParen, cols 15 16⟩,
      ⟨.identifier "a", cols 16 17⟩, ⟨.symbol .closeParen, cols 17 18⟩,
      ⟨.symbol .semicolon, cols 18 19⟩, ⟨.keyword .endmodule, cols 19 28⟩] := by
    decide +kernel
  have hboth : [apostrophe, dollar] <:+: scan source := ⟨_, _, hscan.symm⟩
  have hone : [apostrophe] <:+: scan source := List.IsInfix.trans ⟨[], [dollar], rfl⟩ hboth
  refine ⟨hone, hboth, ?_, ?_⟩
  · exact ((scan_slices source).1 apostrophe [] hone).not.mpr (by decide)
  · exact ((scan_slices source).1 apostrophe [dollar] hboth).mpr (by decide)

end Token

end DesignAtlas
