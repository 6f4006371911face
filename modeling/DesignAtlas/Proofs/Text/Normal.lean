import DesignAtlas.Pin.Item
import DesignAtlas.Proofs.Text.Pieces

/-! # Texts with few blanks

Four normal forms of a text: no blank (`Unbroken`), at most one blank, which is a space (`Phrase`), no
blanks but one space between words (`Collapsed`), no blank at either end (`Trimmed`). They are the
forms that squeezing, joining the words of a type, collapsing and trimming leave. -/

namespace DesignAtlas

/-- No character is blank. -/
def Unbroken (s : String) : Prop := ∀ c ∈ s.toList, isBlank c = false

instance (s : String) : Decidable (Unbroken s) :=
  List.decidableBAll (fun c => isBlank c = false) s.toList

/-- The text has at most one blank, and that one is a space. -/
def Phrase (s : String) : Prop := s.toList.filter isBlank = [] ∨ s.toList.filter isBlank = [' ']

/-- Collapsing changes nothing. -/
def Collapsed (s : String) : Prop := Text.collapse s.toList = s.toList

namespace Text

/-- The text neither begins nor ends with a blank. -/
structure Trimmed (t : Text) : Prop where
  front : t.Flush
  back : ∀ c ∈ t.getLast?, isBlank c = false

/-! ### Words -/

/-- A word is not empty and has no blanks. -/
theorem solid_of_mem_words {t w : Text} (h : w ∈ words t) : w ≠ [] ∧ ∀ c ∈ w, isBlank c = false := by
  obtain ⟨hw, hne⟩ := List.mem_filter.mp h
  exact ⟨by simpa using hne, sep_of_mem_split hw⟩

/-- **Words with a space between them** are the words of the text that they make. -/
theorem words_intercalate : ∀ {ws : List Text}, (∀ w ∈ ws, w ≠ [] ∧ ∀ c ∈ w, isBlank c = false) →
    words (List.intercalate [' '] ws) = ws
  | [], _ => rfl
  | [w], h => by
    obtain ⟨hne, hw⟩ := h w (by simp)
    rw [List.intercalate_singleton, words_of_solid hne hw]
  | w :: v :: ws, h => by
    obtain ⟨hne, hw⟩ := h w (by simp)
    rw [List.intercalate_cons_cons, List.append_assoc, List.singleton_append,
      words_cons_word hne hw isBlank_space,
      words_intercalate fun u hu => h u (List.mem_cons_of_mem w hu)]

/-- Collapsing keeps the words. -/
theorem words_collapse (t : Text) : words (collapse t) = words t :=
  words_intercalate fun _ => solid_of_mem_words

theorem collapse_cons_blank {c : Char} (hc : isBlank c = true) (t : Text) :
    collapse (c :: t) = collapse t := by
  unfold collapse
  rw [words_cons_blank hc]

theorem collapse_collapse (t : Text) : collapse (collapse t) = collapse t := by
  rw [collapse, words_collapse]
  rfl

/-- Two texts that meet in visible characters have one word less than with a blank between them. -/
theorem length_words_append {x y : Char} (hx : isBlank x = false) (hy : isBlank y = false)
    (a t : Text) : (words (a ++ [x])).length + (words (y :: t)).length =
      (words (a ++ [x] ++ y :: t)).length + 1 := by
  obtain ⟨w, p, rfl, hp, hw⟩ := exists_solid_end a
  obtain ⟨q, v, rfl, hq, hv⟩ := exists_solid_front t
  have hfront : ∀ c ∈ y :: q, isBlank c = false := List.forall_mem_cons.mpr ⟨hy, hq⟩
  have hend : ∀ c ∈ p ++ [x], isBlank c = false :=
    List.forall_mem_append.mpr ⟨hp, by simpa using hx⟩
  -- a run of visible characters in front of `v` is one word
  have hone : ∀ s : Text, s ≠ [] → (∀ c ∈ s, isBlank c = false) →
      words (s ++ v) = s :: words v := by
    intro s hne hs
    obtain rfl | ⟨b, v, rfl, hb⟩ := hv
    · rw [List.append_nil, words_of_solid hne hs]
      rfl
    · rw [words_cons_word hne hs hb, words_cons_blank hb]
  have hjoin : w ++ p ++ [x] ++ y :: (q ++ v) = w ++ ((p ++ [x] ++ y :: q) ++ v) := by simp
  rw [hjoin, hw, List.append_assoc, hw, ← List.cons_append,
    hone (p ++ [x] ++ y :: q) (by simp) (List.forall_mem_append.mpr ⟨hend, hfront⟩),
    hone (y :: q) (by simp) hfront, words_of_solid (by simp) hend]
  simp only [List.length_append, List.length_cons, List.length_nil]
  omega

/-- **A space between two texts** does not change the collapsed text, unless the texts meet in
visible characters. -/
theorem collapse_space_iff {a t : Text} : collapse (a ++ t) = collapse (a ++ ' ' :: t) ↔
    ¬ ∃ x ∈ a.getLast?, ∃ y ∈ t.head?, isBlank x = false ∧ isBlank y = false := by
  constructor
  · rintro h ⟨x, hx, y, hy, hxv, hyv⟩
    obtain ⟨a, rfl⟩ := List.getLast?_eq_some_iff.mp hx
    obtain ⟨t, rfl⟩ := List.head?_eq_some_iff.mp hy
    have hwords := congrArg (fun s => (words s).length) h
    simp only [words_collapse, words_append_blank isBlank_space, List.length_append] at hwords
    have := length_words_append hxv hyv a t
    omega
  · intro hnot
    suffices words (a ++ t) = words a ++ words t by
      rw [collapse, collapse, this, words_append_blank isBlank_space]
    rcases List.eq_nil_or_concat a with rfl | ⟨a, x, rfl⟩
    · rfl
    cases t with
    | nil => exact (congrArg words (List.append_nil _)).trans (List.append_nil _).symm
    | cons y t =>
      rw [List.concat_eq_append] at hnot ⊢
      by_cases hx : isBlank x = true
      · rw [words_append_blanks (b := [x]) (by simpa using hx), List.append_assoc,
          List.singleton_append, words_append_blank hx]
      · have hy : isBlank y = true := by simpa [hx] using hnot
        rw [words_append_blank hy, words_cons_blank hy]

theorem eq_or_mem_of_mem_intercalate {c d : Char} : ∀ {ws : List Text},
    d ∈ List.intercalate [c] ws → d = c ∨ ∃ w ∈ ws, d ∈ w
  | [], h => nomatch h
  | [w], h => by
    rw [List.intercalate_singleton] at h
    exact Or.inr ⟨w, by simp, h⟩
  | w :: v :: ws, h => by
    rw [List.intercalate_cons_cons, List.append_assoc, List.mem_append, List.mem_append,
      List.mem_singleton] at h
    rcases h with h | h | h
    · exact Or.inr ⟨w, by simp, h⟩
    · exact Or.inl h
    · obtain h | ⟨u, hu, hd⟩ := eq_or_mem_of_mem_intercalate h
      · exact Or.inl h
      · exact Or.inr ⟨u, List.mem_cons_of_mem w hu, hd⟩

/-- The only blanks of a collapsed text are spaces. -/
theorem eq_space_of_mem_collapse {t : Text} {c : Char} (h : c ∈ collapse t)
    (hc : isBlank c = true) : c = ' ' := by
  obtain h | ⟨w, hw, hcw⟩ := eq_or_mem_of_mem_intercalate h
  · exact h
  · rw [(solid_of_mem_words hw).2 c hcw] at hc
    cases hc

/-! ### Without blanks -/

theorem squeeze_append (a b : Text) : squeeze (a ++ b) = squeeze a ++ squeeze b :=
  List.filter_append a b

theorem squeeze_of_blank {b : Text} (hb : ∀ c ∈ b, isBlank c = true) : squeeze b = [] := by
  rw [squeeze, List.filter_eq_nil_iff]
  intro c hc
  simp [hb c hc]

theorem squeeze_eq_flatten_words (t : Text) : squeeze t = (words t).flatten := by
  rw [words, List.flatten_filter_not_isEmpty]
  induction t with
  | nil => rfl
  | cons c t ih =>
    rw [split_cons, squeeze, List.filter_cons, ← squeeze, ih]
    by_cases hc : isBlank c = true
    · rw [if_neg (by simp [hc]), if_pos hc, List.flatten_cons, List.nil_append]
    · obtain ⟨l, ls, hl⟩ := List.exists_cons_of_ne_nil (split_ne_nil isBlank t)
      rw [if_pos (by simpa using hc), if_neg hc, hl]
      rfl

theorem squeeze_collapse (t : Text) : squeeze (collapse t) = squeeze t := by
  rw [squeeze_eq_flatten_words, words_collapse, ← squeeze_eq_flatten_words]

/-! ### Ends -/

theorem trimmed_trim (t : Text) : (trim t).Trimmed := by
  refine ⟨flush_trim t, fun c hc => ?_⟩
  unfold trim trimEnd at hc
  rw [List.getLast?_reverse] at hc
  have := List.head?_dropWhile_not isBlank (trimStart t).reverse
  rw [hc] at this
  simpa using this

/-- What is left at the end of a trimmed text is trimmed when it begins with no blank. -/
theorem Trimmed.of_suffix {t u : Text} (h : t.Trimmed) (hu : u <:+ t) (hflush : u.Flush) :
    u.Trimmed := by
  refine ⟨hflush, fun c hc => h.back c ?_⟩
  obtain ⟨a, rfl⟩ := hu
  have hne : u ≠ [] := by
    rintro rfl
    cases hc
  rwa [List.getLast?_append_of_ne_nil _ hne]

end Text

/-! ### Texts of fields -/

theorem unbroken_ofList {t : Text} : Unbroken (String.ofList t) ↔ ∀ c ∈ t, isBlank c = false := by
  rw [Unbroken, String.toList_ofList]

theorem unbroken_squeeze (t : Text) : Unbroken (String.ofList (Text.squeeze t)) :=
  unbroken_ofList.mpr fun c hc => by simpa using (List.mem_filter.mp hc).2

theorem collapsed_collapse (t : Text) : Collapsed (String.ofList (Text.collapse t)) := by
  rw [Collapsed, String.toList_ofList, Text.collapse_collapse]

theorem filter_isBlank_of_unbroken {s : String} (h : Unbroken s) : s.toList.filter isBlank = [] :=
  List.filter_eq_nil_iff.mpr fun c hc => by simp [h c hc]

theorem Unbroken.phrase {s : String} (h : Unbroken s) : Phrase s :=
  Or.inl (filter_isBlank_of_unbroken h)

/-- **The words of a type** make a phrase: there is at most one of the type itself and at most one
that tells the signing. -/
theorem phrase_typeText {as bs : List String} (ha : as.length ≤ 1) (hb : bs.length ≤ 1)
    (h : ∀ w ∈ as ++ bs, Unbroken w) : ∀ s ∈ typeText (as ++ bs), Phrase s := by
  have hone : ∀ w, Unbroken w → ∀ s ∈ typeText [w], Phrase s := by
    intro w hw s hs
    obtain rfl : w = s := by simpa [typeText] using hs
    exact hw.phrase
  match as, bs, ha, hb with
  | [], [], _, _ => intro s hs; cases hs
  | [a], [], _, _ => exact hone a (h a (by simp))
  | [], [b], _, _ => exact hone b (h b (by simp))
  | [a], [b], _, _ =>
    intro s hs
    obtain rfl : a ++ " " ++ b = s := by simpa [typeText] using hs
    right
    simp [filter_isBlank_of_unbroken (h a (by simp)), filter_isBlank_of_unbroken (h b (by simp)),
      isBlank_space]

end DesignAtlas
