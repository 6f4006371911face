import DesignAtlas.Proofs.Token.Sealed

/-! # Bracketed ranges

A range is a text whose tokens begin with a square bracket and end with the one that closes it
(`Token.IsRange`, `Range`). Such a text is sealed, its tokens are a range wherever it is written, and
ranges at the front of a token list are taken off whole, one after the other
(`Token.takeRanges?_append_ranges`). -/

namespace DesignAtlas

/-! ### Brackets that close at the end -/

namespace Token

/-- The number of square brackets that open. -/
def bracketsOpened (ts : List Token) : Nat := ts.countP (isSymbol .openBracket)

/-- The number of square brackets that close. -/
def bracketsClosed (ts : List Token) : Nat := ts.countP (isSymbol .closeBracket)

/-- The tokens begin with a square bracket and end with the one that closes it. -/
structure IsRange (ts : List Token) : Prop where
  first : ts.head?.any (isSymbol .openBracket) = true
  last : ts.getLast?.any (isSymbol .closeBracket) = true
  even : bracketsClosed ts = bracketsOpened ts
  /-- The first bracket is open until the end. -/
  inside : ∀ us, us <+: ts → us ≠ [] → us ≠ ts → bracketsClosed us < bracketsOpened us

instance (ts : List Token) : Decidable (IsRange ts) :=
  decidable_of_iff (ts.head?.any (isSymbol .openBracket) = true ∧
      ts.getLast?.any (isSymbol .closeBracket) = true ∧ bracketsClosed ts = bracketsOpened ts ∧
      ∀ us ∈ ts.inits, us ≠ [] → us ≠ ts → bracketsClosed us < bracketsOpened us)
    ⟨fun h => ⟨h.1, h.2.1, h.2.2.1, fun us hus => h.2.2.2 us ((List.mem_inits us ts).mpr hus)⟩,
      fun h => ⟨h.first, h.last, h.even, fun us hus => h.inside us ((List.mem_inits us ts).mp hus)⟩⟩

theorem not_isSymbol_of_identifier {t : Token} {w : String} (h : t.identifier? = some w)
    (s : Symbol) : ¬ t.isSymbol s = true := by
  intro hs
  rw [identifier?, eq_of_beq hs] at h
  cases h

/-- The tokens close `depth` square brackets more than they open, the last of these at their end. -/
structure ClosesLast (depth : Nat) (ts : List Token) : Prop where
  all : bracketsClosed ts = bracketsOpened ts + depth
  before : ∀ us, us <+: ts → us ≠ ts → bracketsClosed us < bracketsOpened us + depth

section Cons

variable {t : Token} {ts : List Token} {depth : Nat}

theorem bracketsOpened_cons (us : List Token) : bracketsOpened (t :: us) =
    bracketsOpened us + if t.isSymbol .openBracket then 1 else 0 := List.countP_cons

theorem bracketsClosed_cons (us : List Token) : bracketsClosed (t :: us) =
    bracketsClosed us + if t.isSymbol .closeBracket then 1 else 0 := List.countP_cons

theorem not_closeBracket (h : t.isSymbol .openBracket = true) :
    ¬ t.isSymbol .closeBracket = true := by
  unfold isSymbol at h ⊢
  rw [eq_of_beq h]
  simp

theorem closesLast_nil_iff : ClosesLast depth [] ↔ depth = 0 := by
  constructor
  · intro h
    have := h.all
    simp only [bracketsClosed, bracketsOpened, List.countP_nil] at this
    omega
  · rintro rfl
    exact ⟨rfl, fun us hus hne => absurd (List.prefix_nil.mp hus) hne⟩

theorem ClosesLast.pos (h : ClosesLast depth (t :: ts)) : 0 < depth := by
  have := h.before [] List.nil_prefix (by simp)
  simpa [bracketsClosed, bracketsOpened] using this

/-- **What the first token opens or closes** is added to what is open. -/
theorem ClosesLast.tail (h : ClosesLast depth (t :: ts)) :
    ClosesLast (if t.isSymbol .openBracket then depth + 1
      else if t.isSymbol .closeBracket then depth - 1 else depth) ts := by
  have hpos := h.pos
  have hall := h.all
  have hbefore : ∀ us, us <+: ts → us ≠ ts →
      bracketsClosed (t :: us) < bracketsOpened (t :: us) + depth := fun us hus hne =>
    h.before (t :: us) (List.cons_prefix_cons.mpr ⟨rfl, hus⟩) (by simpa using hne)
  simp only [bracketsOpened_cons, bracketsClosed_cons] at hall hbefore
  by_cases ho : t.isSymbol .openBracket = true
  · simp only [if_pos ho, if_neg (not_closeBracket ho)] at hall hbefore ⊢
    exact ⟨by omega, fun us hus hne => by have := hbefore us hus hne; omega⟩
  by_cases hc : t.isSymbol .closeBracket = true
  · simp only [if_neg ho, if_pos hc] at hall hbefore ⊢
    exact ⟨by omega, fun us hus hne => by have := hbefore us hus hne; omega⟩
  · simp only [if_neg ho, if_neg hc] at hall hbefore ⊢
    exact ⟨by omega, fun us hus hne => by have := hbefore us hus hne; omega⟩

end Cons

/-- **Tokens that close all brackets at their end** are taken whole. -/
theorem takeRanges?_of_closesLast : ∀ {ts : List Token} {depth : Nat}, ClosesLast depth ts →
    ∀ us : List Token, takeRanges? depth (ts ++ us) =
      (takeRanges? 0 us).map fun r => (ts ++ r.1, r.2)
  | [], depth, h, us => by
    rw [closesLast_nil_iff.mp h]
    simp
  | t :: ts, depth, h, us => by
    have ih := takeRanges?_of_closesLast h.tail us
    obtain ⟨d, rfl⟩ := Nat.exists_eq_succ_of_ne_zero h.pos.ne'
    rw [List.cons_append, takeRanges?]
    split_ifs at ih ⊢ with ho hc
    · rw [ih, Option.map_map]
      rfl
    · rw [Nat.succ_sub_one] at ih
      rw [ih, Option.map_map]
      rfl
    · rw [ih, Option.map_map]
      rfl

theorem takeRanges?_append_range {ts : List Token} (h : IsRange ts) (us : List Token) :
    takeRanges? 0 (ts ++ us) = (takeRanges? 0 us).map fun r => (ts ++ r.1, r.2) := by
  obtain ⟨first, last, even, inside⟩ := h
  cases ts with
  | nil => cases first
  | cons t ts =>
    have ho : t.isSymbol .openBracket = true := by simpa using first
    have hc := not_closeBracket ho
    have htail : ClosesLast 1 ts := by
      refine ⟨?_, fun vs hvs hne => ?_⟩
      · rw [bracketsOpened_cons, bracketsClosed_cons, if_pos ho, if_neg hc] at even
        exact even
      · have := inside (t :: vs) (List.cons_prefix_cons.mpr ⟨rfl, hvs⟩) (by simp)
          (by simpa using hne)
        rwa [bracketsOpened_cons, bracketsClosed_cons, if_pos ho, if_neg hc] at this
    rw [List.cons_append, takeRanges?, if_pos ho, takeRanges?_of_closesLast htail, Option.map_map]
    rfl

/-- **Ranges one after the other** are taken off the front. -/
theorem takeRanges?_append_ranges : ∀ {rs : List (List Token)}, (∀ r ∈ rs, IsRange r) →
    ∀ {us : List Token}, ¬ us.head?.any (isSymbol .openBracket) = true →
      takeRanges? 0 (rs.flatten ++ us) = some (rs.flatten, us)
  | [], _, us, hus => Checked.takeRanges?_of_not_open hus
  | r :: rs, h, us, hus => by
    rw [List.flatten_cons, List.append_assoc, takeRanges?_append_range (h r (by simp)),
      takeRanges?_append_ranges (fun s hs => h s (by simp [hs])) hus]
    rfl

/-! ### Ranges as texts -/

/-- A range is one wherever it is written. -/
theorem isRange_relocate {ts : List Token} (h : IsRange ts) (f : Position → Position) :
    IsRange (ts.map (relocate f)) := by
  have hcount : ∀ (s : Symbol) (us : List Token),
      (us.map (relocate f)).countP (isSymbol s) = us.countP (isSymbol s) := fun s us => by
    rw [List.countP_map]
    rfl
  have hopened : ∀ us, bracketsOpened (us.map (relocate f)) = bracketsOpened us :=
    hcount .openBracket
  have hclosed : ∀ us, bracketsClosed (us.map (relocate f)) = bracketsClosed us :=
    hcount .closeBracket
  refine ⟨?_, ?_, by rw [hopened, hclosed, h.even], fun us hus hne hall => ?_⟩
  · rw [List.head?_map, Option.any_map]
    exact h.first
  · rw [List.getLast?_map, Option.any_map]
    exact h.last
  · obtain ⟨vs, hvs, rfl⟩ := List.prefix_map_iff.mp hus
    rw [hopened, hclosed]
    exact h.inside vs hvs (fun hnil => hne (by rw [hnil]; rfl)) fun he => hall (by rw [he])

end Token

/-- The text of a range, with any layout. -/
structure Range where
  text : Text
  isRange : Token.IsRange (Token.scan text)

namespace Range

theorem sealed (r : Range) : r.text.Sealed := Text.sealed_of_symbol r.isRange.last

theorem isRange_scanFrom (r : Range) (p : Position) :
    Token.IsRange (Token.scanFrom p r.text) := by
  rw [Token.scanFrom_eq_relocate]
  exact Token.isRange_relocate r.isRange _

end Range

end DesignAtlas
