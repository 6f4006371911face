import DesignAtlas.Proofs.Text.Normal

/-! # Cutting a text in two

A text that is cut in two has the pieces of both parts, with the piece at the cut in one
(`split_append`). The other way round, a piece tells where it stands in the text
(`exists_of_getElem?_split`). -/

namespace DesignAtlas.Text

variable {sep : Char → Bool}

/-! ### Pieces -/

theorem exists_split_eq_concat (sep : Char → Bool) (t : Text) :
    ∃ ps p, split sep t = ps ++ [p] := by
  obtain h | ⟨ps, p, h⟩ := List.eq_nil_or_concat (split sep t)
  · exact absurd h (split_ne_nil sep t)
  · exact ⟨ps, p, by rw [h, List.concat_eq_append]⟩

theorem mem_of_mem_split {c : Char} : ∀ {t p : Text}, p ∈ split sep t → c ∈ p → c ∈ t
  | [], p, hp, hc => by
    obtain rfl : p = [] := by simpa using hp
    exact hc
  | d :: t, p, hp, hc => by
    obtain ⟨q, qs, hq⟩ := List.exists_cons_of_ne_nil (split_ne_nil sep t)
    have ih : ∀ {p : Text}, p ∈ q :: qs → c ∈ p → c ∈ t := fun hp hc =>
      mem_of_mem_split (hq ▸ hp) hc
    rw [split_cons, hq] at hp
    split_ifs at hp
    · rcases List.mem_cons.mp hp with rfl | hp
      · cases hc
      · exact List.mem_cons_of_mem d (ih hp hc)
    · rcases List.mem_cons.mp hp with rfl | hp
      · rcases List.mem_cons.mp hc with rfl | hc
        · exact List.mem_cons_self
        · exact List.mem_cons_of_mem d (ih List.mem_cons_self hc)
      · exact List.mem_cons_of_mem d (ih (List.mem_cons_of_mem q hp) hc)

/-- A text is its first piece, and the others behind a separator. -/
theorem exists_split_eq_cons (sep : Char → Bool) (t : Text) : ∃ l ls, split sep t = l :: ls ∧
    (t = l ∧ ls = [] ∨ ∃ c u, sep c = true ∧ t = l ++ c :: u ∧ ls = split sep u) := by
  induction t with
  | nil => exact ⟨[], [], rfl, Or.inl ⟨rfl, rfl⟩⟩
  | cons c t ih =>
    rw [split_cons]
    by_cases hc : sep c = true
    · exact ⟨[], split sep t, if_pos hc, Or.inr ⟨c, t, hc, rfl, rfl⟩⟩
    · obtain ⟨l, ls, hl, hrest⟩ := ih
      rw [if_neg hc, hl]
      refine ⟨c :: l, ls, rfl, ?_⟩
      rcases hrest with ⟨rfl, hls⟩ | ⟨d, u, hd, rfl, hls⟩
      · exact Or.inl ⟨rfl, hls⟩
      · exact Or.inr ⟨d, u, hd, rfl, hls⟩

/-- A text begins as its first piece does. -/
theorem head?_of_split {t p : Text} {qs : List Text} {c : Char} (h : split sep t = (c :: p) :: qs) :
    t.head? = some c := by
  cases t with
  | nil => simp at h
  | cons d t =>
    obtain ⟨l, ls, hl⟩ := List.exists_cons_of_ne_nil (split_ne_nil sep t)
    rw [split_cons, hl] at h
    split_ifs at h
    · cases h
    · rw [consHead] at h
      rw [List.head?_cons, (List.cons.inj (List.cons.inj h).1).1]

/-- **The pieces of a text in two parts**: the last piece of one part and the first of the other
are one. -/
theorem split_append {b q : Text} {qs : List Text} (hb : split sep b = q :: qs) :
    ∀ {a p : Text} {ps : List Text}, split sep a = ps ++ [p] →
      split sep (a ++ b) = ps ++ (p ++ q) :: qs
  | [], p, ps, ha => by
    rw [split_nil, List.singleton_eq_append_iff] at ha
    obtain ⟨rfl, hp⟩ | ⟨-, hp⟩ := ha
    · obtain rfl : [] = p := by simpa using hp
      exact hb
    · simp at hp
  | c :: a, p, ps, ha => by
    obtain ⟨ps', p', ha'⟩ := exists_split_eq_concat sep a
    rw [split_cons, ha'] at ha
    rw [List.cons_append, split_cons, split_append hb ha']
    split_ifs at ha ⊢
    · rw [← List.cons_append] at ha
      obtain ⟨rfl, hp⟩ := List.append_inj' ha rfl
      rw [← (List.cons.inj hp).1, List.cons_append]
    · cases ps' with
      | nil =>
        have ha : [] ++ [c :: p'] = ps ++ [p] := ha
        obtain ⟨rfl, hp⟩ := List.append_inj' ha rfl
        rw [← (List.cons.inj hp).1]
        rfl
      | cons l ls =>
        have ha : (c :: l) :: ls ++ [p'] = ps ++ [p] := ha
        obtain ⟨rfl, hp⟩ := List.append_inj' ha rfl
        rw [← (List.cons.inj hp).1]
        rfl

/-- **Where a piece stands in a text**: behind as many pieces as its index says, and before a
separator or the end. -/
theorem exists_of_getElem?_split : ∀ {t p : Text} {k : Nat}, (split sep t)[k]? = some p →
    ∃ u v ps, t = u ++ (p ++ v) ∧ split sep u = ps ++ [[]] ∧ ps.length = k ∧
      ∀ w : Text, (∀ c ∈ w, sep c = false) → ∃ qs, split sep (w ++ v) = w :: qs
  | [], p, k, h => by
    obtain ⟨hk, hp⟩ := List.getElem?_eq_some_iff.mp h
    obtain rfl : k = 0 := by simpa using hk
    obtain rfl : [] = p := hp
    exact ⟨[], [], [], rfl, rfl, rfl, fun w hw => ⟨[], by rw [List.append_nil, split_of_none hw]⟩⟩
  | c :: t, p, k, h => by
    rw [split_cons] at h
    by_cases hc : sep c = true
    · rw [if_pos hc] at h
      cases k with
      | zero =>
        obtain rfl : [] = p := Option.some.inj h
        refine ⟨[], c :: t, [], rfl, rfl, rfl, fun w hw => ⟨split sep t, ?_⟩⟩
        rw [split_append_sep hc, split_of_none hw, List.singleton_append]
      | succ k =>
        obtain ⟨u, v, ps, rfl, hu, hk, hv⟩ := exists_of_getElem?_split (t := t) h
        refine ⟨c :: u, v, [] :: ps, rfl, ?_, by rw [List.length_cons, hk], hv⟩
        rw [split_cons, if_pos hc, hu, List.cons_append]
    · rw [if_neg hc] at h
      obtain ⟨l, ls, hl⟩ := List.exists_cons_of_ne_nil (split_ne_nil sep t)
      rw [hl] at h
      cases k with
      | zero =>
        -- the piece at the front of the text is longer by this character
        obtain rfl : c :: l = p := Option.some.inj h
        obtain ⟨u, v, ps, ht, hu, hk, hv⟩ :=
          exists_of_getElem?_split (t := t) (p := l) (k := 0) (by rw [hl]; rfl)
        obtain rfl := List.length_eq_zero_iff.mp hk
        have hnil : u = [] := by
          cases u with
          | nil => rfl
          | cons d u =>
            rw [split_cons] at hu
            obtain ⟨q, qs, hq⟩ := List.exists_cons_of_ne_nil (split_ne_nil sep u)
            rw [hq] at hu
            split_ifs at hu <;> simp [consHead] at hu
        rw [hnil, List.nil_append] at ht
        exact ⟨[], v, [], by rw [ht]; rfl, rfl, rfl, hv⟩
      | succ k =>
        obtain ⟨u, v, ps, rfl, hu, hk, hv⟩ :=
          exists_of_getElem?_split (t := t) (p := p) (k := k + 1) (by rw [hl]; exact h)
        obtain ⟨q, qs, rfl⟩ := List.exists_cons_of_length_eq_add_one hk
        refine ⟨c :: u, v, (c :: q) :: qs, rfl, ?_, hk, hv⟩
        rw [split_cons, if_neg hc, hu]
        rfl

/-! ### Blanks around a text -/

/-- A text is blank, or has a first visible character. -/
theorem exists_visible (t : Text) : (∀ c ∈ t, isBlank c = true) ∨
    ∃ lead c u, t = lead ++ c :: u ∧ (∀ d ∈ lead, isBlank d = true) ∧ isBlank c = false := by
  cases h : t.dropWhile isBlank with
  | nil => exact Or.inl (List.dropWhile_eq_nil_iff.mp h)
  | cons c u =>
    have hc := List.head?_dropWhile_not isBlank t
    rw [h] at hc
    refine Or.inr ⟨t.takeWhile isBlank, c, u, ?_, fun d hd => List.mem_takeWhile_imp hd,
      by simpa using hc⟩
    rw [← h, List.takeWhile_append_dropWhile]

theorem exists_trim (t : Text) : ∃ lead trail, t = lead ++ (trim t ++ trail) ∧
    (∀ c ∈ lead, isBlank c = true) ∧ ∀ c ∈ trail, isBlank c = true := by
  refine ⟨t.takeWhile isBlank, (trimStart t).rtakeWhile isBlank, ?_,
    fun c hc => List.mem_takeWhile_imp hc, fun c hc => List.mem_rtakeWhile_imp hc⟩
  have hback : trim t ++ (trimStart t).rtakeWhile isBlank = trimStart t :=
    List.rdropWhile_append_rtakeWhile
  rw [hback]
  exact List.takeWhile_append_dropWhile.symm

/-- Blanks behind a text that ends in a visible character are trimmed off its end. -/
theorem trimEnd_append {w trail : Text} (hne : w ≠ []) (hw : ∀ c ∈ w.getLast?, isBlank c = false)
    (htrail : ∀ c ∈ trail, isBlank c = true) (a : Text) :
    trimEnd (a ++ (w ++ trail)) = a ++ w := by
  rw [← List.append_assoc, trimEnd_append_blanks htrail]
  refine List.rdropWhile_eq_self_iff.mpr fun hne' => ?_
  have hlast : (a ++ w).getLast hne' ∈ w.getLast? := by
    rw [← List.getLast?_append_of_ne_nil a hne, List.getLast?_eq_getLast_of_ne_nil hne']
    rfl
  rw [hw _ hlast]
  exact Bool.false_ne_true

/-- Blanks around a trimmed text are trimmed off. -/
theorem trim_of_trimmed {w lead trail : Text} (hw : w.Trimmed)
    (hlead : ∀ c ∈ lead, isBlank c = true) (htrail : ∀ c ∈ trail, isBlank c = true) :
    trim (lead ++ (w ++ trail)) = w := by
  by_cases hne : w = []
  · subst hne
    refine trim_of_blank fun c hc => ?_
    rcases List.mem_append.mp hc with hc | hc
    · exact hlead c hc
    · exact htrail c hc
  · have hstart : trimStart (lead ++ (w ++ trail)) = w ++ trail := by
      obtain ⟨c, u, rfl⟩ := List.exists_cons_of_ne_nil hne
      have hc : isBlank c = false := hw.front c rfl
      unfold trimStart
      rw [List.dropWhile_append_of_pos hlead, List.cons_append,
        List.dropWhile_cons_of_neg (by simp [hc])]
    rw [trim, hstart]
    exact trimEnd_append hne hw.back htrail []

/-- Blanks behind a text are trimmed off. -/
theorem trim_append_of_blank {b : Text} (hb : ∀ c ∈ b, isBlank c = true) (t : Text) :
    trim (t ++ b) = trim t := by
  obtain ⟨lead, trail, ht, hlead, htrail⟩ := exists_trim t
  conv_lhs => rw [ht, List.append_assoc, List.append_assoc]
  exact trim_of_trimmed (trimmed_trim t) hlead
    (List.forall_mem_append.mpr ⟨htrail, hb⟩)

end DesignAtlas.Text
