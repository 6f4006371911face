import DesignAtlas.Proofs.Token.Listed
import DesignAtlas.Proofs.Token.Places
import DesignAtlas.Proofs.Token.Shorten
import DesignAtlas.Proofs.Token.Skeleton

/-! # String literals

A string literal that is a token of a text stays one when its content is replaced by another text
without quotes, backslashes and newlines, and all other tokens stay: the tokens of the two texts
correspond one to one, with the same skeletons, and the source texts of corresponding runs differ at
most in the content of the literal (`Text.LiteralAt.exists_correspond`). -/

namespace DesignAtlas

open Glyph (place spell ReadAll)

namespace Text

/-- The string literal with the content `c`. -/
def literal (c : Text) : Text := '\x22' :: (c ++ ['\x22'])

/-- The text can stand between quotes in a line: it holds no quote, backslash or newline. -/
structure Quotable (c : Text) : Prop where
  quote : '\x22' ∉ c
  backslash : '\x5c' ∉ c
  newline : '\n' ∉ c

instance (c : Text) : Decidable (Quotable c) :=
  decidable_of_iff ('\x22' ∉ c ∧ '\x5c' ∉ c ∧ '\n' ∉ c)
    ⟨fun h => ⟨h.1, h.2.1, h.2.2⟩, fun h => ⟨h.1, h.2, h.3⟩⟩

/-- The literal of `c` behind `a` is a token of the text with `z` behind the literal. -/
def LiteralAt (a c z : Text) : Prop :=
  ∃ t ∈ Token.scan (a ++ literal c ++ z), t.payload = .string (String.ofList c) ∧
    t.span = ⟨Position.start.advance a, Position.start.advance (a ++ literal c)⟩

instance (a c z : Text) : Decidable (LiteralAt a c z) :=
  inferInstanceAs (Decidable (∃ t ∈ Token.scan (a ++ literal c ++ z), _ ∧ _))

/-- The texts differ at most in the content of one literal. -/
def Requoted (c c' t t' : Text) : Prop :=
  t' = t ∨ ∃ x y, t = x ++ literal c ++ y ∧ t' = x ++ literal c' ++ y

/-- The tokens of `t'` are those of `t` changed by `f`, which keeps skeletons, and the source texts
of runs of them differ at most in the content of one literal. -/
structure Correspond (c c' : Text) (f : Token → Token) (t t' : Text) : Prop where
  skeleton : ∀ u, (f u).skeleton = u.skeleton
  scan : Token.scan t' = (Token.scan t).map f
  source : ∀ us, us <:+: Token.scan t →
    Requoted c c' (Token.sourceOf t us) (Token.sourceOf t' (us.map f))

theorem Correspond.refl (c c' t : Text) : Correspond c c' id t t where
  skeleton := fun _ => rfl
  scan := (List.map_id _).symm
  source := fun us _ => Or.inl (by rw [List.map_id])

end Text

namespace Lexeme

/-- The content of a literal is read up to its end. -/
theorem splitString_quote (u : Text) : ∀ {c : Text}, '\x22' ∉ c → '\x5c' ∉ c →
    splitString (c ++ '\x22' :: u) = (c, '\x22' :: u)
  | [], _, _ => by
    cases u <;> simp [splitString]
  | d :: c, hq, hb => by
    rw [List.mem_cons, not_or] at hq hb
    have ih := splitString_quote u hq.2 hb.2
    -- one more character stands behind `d`, at least the quote
    obtain ⟨e, t, ht⟩ : ∃ e t, c ++ '\x22' :: u = e :: t := by
      cases c with
      | nil => exact ⟨_, _, rfl⟩
      | cons e c => exact ⟨_, _, rfl⟩
    rw [List.cons_append]
    rw [ht] at ih ⊢
    rw [splitString, if_neg (Ne.symm hq.1), if_neg (Ne.symm hb.1), ih]

end Lexeme

/-- The literal as a glyph. -/
def Glyph.literal (gap c : Text) : Glyph := ⟨gap, .string (String.ofList c), Text.literal c⟩

namespace Text

variable {a c c' z : Text}

/-- **A literal is read as it is written,** whatever follows it. -/
theorem Quotable.reads (hc : Quotable c) {gap : Text} (hgap : ∀ b ∈ gap, isBlank b = true)
    (rest : Text) : (Glyph.literal gap c).Reads rest := by
  refine ⟨hgap, '\x22', c ++ ['\x22'], rfl, by decide, ?_⟩
  rw [Lexeme.recognise_quote, List.append_assoc, List.singleton_append]
  simp [Lexeme.string, Lexeme.splitString_quote rest hc.quote hc.backslash, Glyph.literal, literal]

/-- Beginnings of one text with the same number of bytes are the same. -/
theorem eq_of_byteLength_eq {b u v : Text} (h : a ++ u = b ++ v)
    (hlen : byteLength a = byteLength b) : a = b := by
  rw [← takeBytes_append a u, ← takeBytes_append b v, h, hlen]

/-- **What stands before and behind a literal,** as glyphs; those before it are read alike whatever
follows the quote. -/
theorem LiteralAt.exists_layout (h : LiteralAt a c z) : ∃ gs gap hs tail,
    a = spell gs ++ gap ∧ z = spell hs ++ tail ∧ (∀ b ∈ gap, isBlank b = true) ∧
      (∀ b ∈ tail, isBlank b = true) ∧ (∀ u, ReadAll gs (gap ++ '\x22' :: u)) ∧
        ReadAll hs tail := by
  obtain ⟨t, ht, -, hspan⟩ := h
  obtain ⟨all, tail, htext, htail, hall⟩ := Glyph.exists_layout (a ++ literal c ++ z)
  rw [htext, Token.scan, Glyph.scanFrom_spell_blank hall htail] at ht
  obtain ⟨before, after, hplace⟩ := List.append_of_mem ht
  obtain ⟨gs, rest, rfl, -, hrest⟩ := Glyph.place_eq_append hplace
  cases rest with
  | nil => cases hrest
  | cons g hs =>
    obtain ⟨hg, -⟩ := List.cons.inj hrest
    rw [← hg, Glyph.token, ← Position.advance_append, ← Position.advance_append] at hspan
    obtain ⟨hstart, hlimit⟩ := Span.mk.inj hspan
    have hlength : ∀ {u v : Text}, Position.start.advance u = Position.start.advance v →
        byteLength u = byteLength v := fun huv => by
      have := congrArg Position.offset huv
      simp only [Position.offset_advance] at this
      omega
    -- the literal is the glyph: both begin and end behind the same number of bytes
    have ha : a = spell gs ++ g.gap := by
      refine eq_of_byteLength_eq (u := literal c ++ z) (v := g.text ++ spell hs ++ tail) ?_
        (hlength hstart).symm
      rw [← List.append_assoc, htext]
      simp [Glyph.spelling]
    have hliteral : a ++ literal c = spell gs ++ g.spelling := by
      refine eq_of_byteLength_eq (u := z) (v := spell hs ++ tail) ?_ (hlength hlimit).symm
      rw [htext]
      simp
    have hz : z = spell hs ++ tail := by
      have := htext
      rw [hliteral] at this
      simpa using this
    have htextg : g.text = literal c := by
      rw [ha, Glyph.spelling, List.append_assoc, List.append_cancel_left_eq,
        List.append_cancel_left_eq] at hliteral
      exact hliteral.symm
    obtain ⟨hallBefore, hreads, hallAfter⟩ := Glyph.readAll_append.mp hall
    refine ⟨gs, g.gap, hs, tail, ha, hz, hreads.blank, htail, fun u => ?_, hallAfter⟩
    have hquote : ReadAll gs (g.gap ++ ['\x22'] ++ (c ++ '\x22' :: (spell hs ++ tail))) := by
      simpa [Glyph.spelling, htextg, literal] using hallBefore
    have hshort := Glyph.readAll_shorten hquote (Or.inl (by simp))
    simpa using Glyph.readAll_append_right hshort (by simp) u

/-! ### One element replaced -/

/-- Corresponding infixes of lists that differ in one element. -/
theorem infix_replace {α : Type} {x x' : α} {hs : List α} :
    ∀ {gs l l' u u' r r' : List α}, gs ++ x :: hs = l ++ (u ++ r) →
      gs ++ x' :: hs = l' ++ (u' ++ r') → l'.length = l.length → u'.length = u.length →
        u' = u ∨ ∃ p q, u = p ++ x :: q ∧ u' = p ++ x' :: q
  | _, _, _, [], u', _, _, _, _, _, hu => Or.inl (List.length_eq_zero_iff.mp hu)
  | [], [], l', y :: u, u', r, r', h, h', hl, hu => by
    obtain rfl := List.length_eq_zero_iff.mp hl
    obtain ⟨y', u', rfl⟩ := List.exists_cons_of_length_eq_add_one hu
    obtain ⟨rfl, hrest⟩ := List.cons.inj h
    obtain ⟨rfl, hrest'⟩ := List.cons.inj h'
    obtain ⟨rfl, -⟩ := List.append_inj (hrest'.symm.trans hrest) (by simpa using hu)
    exact Or.inr ⟨[], u', rfl, rfl⟩
  | [], y :: l, l', z :: u, u', r, r', h, h', hl, hu => by
    obtain ⟨y', l', rfl⟩ := List.exists_cons_of_length_eq_add_one hl
    obtain ⟨-, hrest⟩ := List.cons.inj h
    obtain ⟨-, hrest'⟩ := List.cons.inj h'
    obtain ⟨-, hbehind⟩ := List.append_inj (hrest'.symm.trans hrest) (by simpa using hl)
    exact Or.inl (List.append_inj hbehind hu).1
  | g :: gs, [], l', y :: u, u', r, r', h, h', hl, hu => by
    obtain rfl := List.length_eq_zero_iff.mp hl
    obtain ⟨y', u', rfl⟩ := List.exists_cons_of_length_eq_add_one hu
    rw [List.nil_append, List.cons_append, List.cons_append, List.cons.injEq] at h h'
    obtain ⟨rfl, hrest⟩ := h
    obtain ⟨rfl, hrest'⟩ := h'
    rw [← List.nil_append (u ++ r)] at hrest
    rw [← List.nil_append (u' ++ r')] at hrest'
    rcases infix_replace hrest hrest' rfl (by simpa using hu) with rfl | ⟨p, q, rfl, rfl⟩
    · exact Or.inl rfl
    · exact Or.inr ⟨g :: p, q, rfl, rfl⟩
  | g :: gs, y :: l, l', z :: u, u', r, r', h, h', hl, hu => by
    obtain ⟨y', l', rfl⟩ := List.exists_cons_of_length_eq_add_one hl
    obtain ⟨-, hrest⟩ := List.cons.inj h
    obtain ⟨-, hrest'⟩ := List.cons.inj h'
    exact infix_replace hrest hrest' (by simpa using hl) hu

/-! ### Tokens in correspondence -/

/-- Tokens with the same skeletons as different tokens are the images of these. -/
theorem exists_map_of_nodup : ∀ {ts ts' : List Token}, ts.Nodup →
    ts'.map Token.skeleton = ts.map Token.skeleton →
      ∃ f : Token → Token, (∀ t, (f t).skeleton = t.skeleton) ∧ ts' = ts.map f
  | [], ts', _, h => ⟨id, fun _ => rfl, by simpa using h⟩
  | t :: ts, ts', hnodup, h => by
    obtain ⟨t', ts', rfl, ht, hts⟩ := List.map_eq_cons_iff.mp h
    obtain ⟨hmem, hnodup⟩ := List.nodup_cons.mp hnodup
    obtain ⟨f, hf, rfl⟩ := exists_map_of_nodup hnodup hts
    refine ⟨Function.update f t t', fun u => ?_, ?_⟩
    · by_cases hu : u = t
      · rw [hu, Function.update_self, ht]
      · rw [Function.update_of_ne hu, hf]
    · rw [List.map_cons, Function.update_self]
      congr 1
      refine List.map_congr_left fun u hu => (Function.update_of_ne ?_ t' f).symm
      rintro rfl
      exact hmem hu

theorem length_place (p : Position) (gs : List Glyph) : (place p gs).length = gs.length := by
  rw [← List.length_map Token.payload, Glyph.map_payload_place, List.length_map]

/-- The source text of a run of glyphs that stands between others. -/
theorem sourceOf_between (as ds gs : List Glyph) (g : Glyph) (tail : Text) :
    Token.sourceOf (spell (as ++ (g :: gs ++ ds)) ++ tail)
      (place (Position.start.advance (spell as)) (g :: gs)) = g.text ++ spell gs := by
  have := Glyph.sourceOf_place (spell as) (spell ds ++ tail) g gs
  simpa using this

/-- Corresponding runs of glyphs that differ in one literal have source texts that differ at most in
its content. -/
theorem requoted_sourceOf {gap tail : Text} {gs hs as bs ds as' bs' ds' : List Glyph}
    (h : gs ++ Glyph.literal gap c :: hs = as ++ (bs ++ ds))
    (h' : gs ++ Glyph.literal gap c' :: hs = as' ++ (bs' ++ ds'))
    (hbefore : as'.length = as.length) (hrun : bs'.length = bs.length) :
    Requoted c c'
      (Token.sourceOf (spell (as ++ (bs ++ ds)) ++ tail)
        (place (Position.start.advance (spell as)) bs))
      (Token.sourceOf (spell (as' ++ (bs' ++ ds')) ++ tail)
        (place (Position.start.advance (spell as')) bs')) := by
  rcases infix_replace h h' hbefore hrun with rfl | ⟨p, q, rfl, rfl⟩
  · left
    cases bs' with
    | nil => rfl
    | cons g bs' => rw [sourceOf_between, sourceOf_between]
  · right
    cases p with
    | nil => exact ⟨[], spell q, sourceOf_between .., sourceOf_between ..⟩
    | cons g p =>
      refine ⟨g.text ++ spell p ++ gap, spell q, (sourceOf_between ..).trans ?_,
        (sourceOf_between ..).trans ?_⟩
      · simp [Glyph.spelling, Glyph.literal]
      · simp [Glyph.spelling, Glyph.literal]

/-- **The tokens of a text correspond to those with another content in a literal.** -/
theorem LiteralAt.exists_correspond (h : LiteralAt a c z) (hc : Quotable c) (hc' : Quotable c') :
    ∃ f : Token → Token,
      Correspond c c' f (a ++ literal c ++ z) (a ++ literal c' ++ z) := by
  obtain ⟨gs, gap, hs, tail, rfl, rfl, hgap, htail, hbefore, hafter⟩ := h.exists_layout
  have htext : ∀ c : Text, spell gs ++ gap ++ literal c ++ (spell hs ++ tail) =
      spell (gs ++ Glyph.literal gap c :: hs) ++ tail := fun c => by
    simp [Glyph.spelling, Glyph.literal]
  have hscan : ∀ {c : Text}, Quotable c →
      Token.scan (spell gs ++ gap ++ literal c ++ (spell hs ++ tail)) =
        place Position.start (gs ++ Glyph.literal gap c :: hs) := by
    intro c hc
    have hall : ReadAll (gs ++ Glyph.literal gap c :: hs) tail := by
      refine Glyph.readAll_append.mpr ⟨?_, hc.reads hgap _, hafter⟩
      have := hbefore (c ++ '\x22' :: (spell hs ++ tail))
      simpa [Glyph.spelling, Glyph.literal, literal] using this
    rw [htext, Token.scan, Glyph.scanFrom_spell_blank hall htail]
  have hskeleton : (place Position.start (gs ++ Glyph.literal gap c' :: hs)).map Token.skeleton =
      (place Position.start (gs ++ Glyph.literal gap c :: hs)).map Token.skeleton := by
    rw [Token.map_skeleton, Token.map_skeleton, Glyph.map_payload_place, Glyph.map_payload_place]
    simp [Glyph.literal, Payload.skeleton]
  have hnodup : (place Position.start (gs ++ Glyph.literal gap c :: hs)).Nodup := by
    rw [← hscan hc]
    exact (Token.pairwise_scan _).imp fun hne he => hne (by rw [he])
  obtain ⟨f, hf, hmap⟩ := exists_map_of_nodup hnodup hskeleton
  refine ⟨f, hf, by rw [hscan hc, hscan hc', hmap], fun us hus => ?_⟩
  -- a run of tokens is a run of glyphs in both texts, behind as many glyphs
  rw [hscan hc] at hus
  obtain ⟨before, after, hsplit⟩ := hus
  rw [List.append_assoc] at hsplit
  obtain ⟨as, rest, hall, has, hrest⟩ := Glyph.place_eq_append hsplit.symm
  obtain ⟨bs, ds, rfl, hbs, -⟩ := Glyph.place_eq_append hrest
  rw [← hsplit, List.map_append, List.map_append] at hmap
  obtain ⟨as', rest', hall', has', hrest'⟩ := Glyph.place_eq_append hmap
  obtain ⟨bs', ds', rfl, hbs', -⟩ := Glyph.place_eq_append hrest'
  have hlength : as'.length = as.length ∧ bs'.length = bs.length := by
    constructor
    · rw [← length_place Position.start as', has', List.length_map, ← has, length_place]
    · rw [← length_place _ bs', hbs', List.length_map, ← hbs, length_place]
  rw [htext, htext, hall, hall', ← hbs', ← hbs]
  exact requoted_sourceOf hall hall' hlength.1 hlength.2

end Text

end DesignAtlas
