import DesignAtlas.Text.Basic
import Mathlib.Data.List.DropRight
import Mathlib.Tactic.Common

/-! # The pieces of a text put together

Cutting a text at a separator is one equation (`split_append_sep`): the pieces before it, then the
pieces behind it. The last piece grows with text that holds no separator (`exists_split_append`),
and the words of a text are cut apart by each of its blanks (`words_append_blank`). Blanks around a
text change none of its words (`words_trim`).

A text that ends in a character that is not blank keeps its end when blanks are trimmed; so does
what is left of it when its front is cut off. -/

namespace DesignAtlas.Text

/-! ### Cutting -/

theorem consHead_append {α : Type} (a : α) : ∀ {ls : List (List α)}, ls ≠ [] →
    ∀ ms : List (List α), consHead a (ls ++ ms) = consHead a ls ++ ms
  | [], h, _ => absurd rfl h
  | _ :: _, _, _ => rfl

theorem consHead_ne_nil {α : Type} (a : α) (ls : List (List α)) : consHead a ls ≠ [] := by
  cases ls <;> simp [consHead]

theorem split_ne_nil (sep : Char → Bool) (t : Text) : split sep t ≠ [] := by
  cases t with
  | nil => simp
  | cons c t =>
    rw [split_cons]
    split_ifs
    · simp
    · exact consHead_ne_nil c _

/-- **A separator cuts a text into the pieces before it and those behind it.** -/
theorem split_append_sep {sep : Char → Bool} {c : Char} (h : sep c = true) (b : Text) :
    ∀ a : Text, split sep (a ++ c :: b) = split sep a ++ split sep b
  | [] => by rw [List.nil_append, split_cons, if_pos h]; rfl
  | d :: a => by
    rw [List.cons_append, split_cons, split_cons, split_append_sep h b a]
    split_ifs
    · rfl
    · exact consHead_append d (split_ne_nil sep a) _

theorem split_of_none {sep : Char → Bool} : ∀ {t : Text}, (∀ c ∈ t, sep c = false) →
    split sep t = [t]
  | [], _ => rfl
  | c :: t, h => by
    rw [split_cons, if_neg (by simp [h c]), split_of_none fun d hd => h d (by simp [hd])]
    rfl

/-- No piece holds a separator. -/
theorem sep_of_mem_split {sep : Char → Bool} : ∀ {t p : Text}, p ∈ split sep t →
    ∀ c ∈ p, sep c = false
  | [], p, hp, c, hc => by
    obtain rfl : p = [] := by simpa using hp
    simp at hc
  | d :: t, p, hp, c, hc => by
    have ih : ∀ {p : Text}, p ∈ split sep t → ∀ c ∈ p, sep c = false := sep_of_mem_split
    obtain ⟨q, qs, hq⟩ := List.exists_cons_of_ne_nil (split_ne_nil sep t)
    rw [split_cons, hq] at hp
    rw [hq] at ih
    split_ifs at hp with hd
    · rcases List.mem_cons.mp hp with rfl | hp
      · simp at hc
      · exact ih hp c hc
    · rcases List.mem_cons.mp hp with rfl | hp
      · rcases List.mem_cons.mp hc with rfl | hc
        · simpa using hd
        · exact ih (by simp) c hc
      · exact ih (by simp [hp]) c hc

/-- Text without a separator makes the last piece longer. -/
theorem exists_split_append (sep : Char → Bool) (t : Text) : ∃ ps : List Text,
    ∀ u : Text, (∀ c ∈ u, sep c = false) →
      split sep (t ++ u) = ps ++ [t.rtakeWhile (fun c => !sep c) ++ u] := by
  induction t using List.reverseRecOn with
  | nil => exact ⟨[], fun u hu => by simpa using split_of_none hu⟩
  | append_singleton t c ih =>
    by_cases hc : sep c = true
    · refine ⟨split sep t, fun u hu => ?_⟩
      rw [List.rtakeWhile_concat_neg _ _ _ (by simp [hc]), List.append_assoc, List.singleton_append,
        split_append_sep hc, split_of_none hu, List.nil_append]
    · obtain ⟨ps, hps⟩ := ih
      refine ⟨ps, fun u hu => ?_⟩
      have hcu : ∀ d ∈ c :: u, sep d = false := by
        rintro d (_ | ⟨_, hd⟩)
        · simpa using hc
        · exact hu d hd
      rw [List.rtakeWhile_concat_pos _ _ _ (by simpa using hc), List.append_assoc,
        List.append_assoc, List.singleton_append, hps _ hcu]

/-- A text is its first line, and the others behind a newline. -/
theorem exists_lines (t : Text) : ∃ l ls, lines t = l :: ls ∧
    (t = l ∧ ls = [] ∨ ∃ u, t = l ++ '\n' :: u ∧ ls = lines u) := by
  induction t with
  | nil => exact ⟨[], [], rfl, Or.inl ⟨rfl, rfl⟩⟩
  | cons c t ih =>
    unfold lines at ih ⊢
    rw [split_cons]
    by_cases hc : c = '\n'
    · subst hc
      exact ⟨[], _, rfl, Or.inr ⟨t, rfl, rfl⟩⟩
    · obtain ⟨l, ls, hlines, hrest⟩ := ih
      rw [if_neg (by simpa using hc), hlines]
      refine ⟨c :: l, ls, rfl, ?_⟩
      rcases hrest with ⟨rfl, hls⟩ | ⟨u, rfl, hls⟩
      · exact Or.inl ⟨rfl, hls⟩
      · exact Or.inr ⟨u, rfl, hls⟩

/-! ### Words -/

theorem words_append_blank {c : Char} (h : isBlank c = true) (a b : Text) :
    words (a ++ c :: b) = words a ++ words b := by
  unfold words
  rw [split_append_sep h, List.filter_append]

theorem words_cons_blank {c : Char} (h : isBlank c = true) (t : Text) :
    words (c :: t) = words t := by
  have := words_append_blank h [] t
  rwa [List.nil_append] at this

theorem words_blanks_append {b : Text} (hb : ∀ c ∈ b, isBlank c = true) (a : Text) :
    words (b ++ a) = words a := by
  induction b with
  | nil => rfl
  | cons c b ih =>
    rw [List.cons_append, words_cons_blank (hb c (by simp)), ih fun d hd => hb d (by simp [hd])]

/-- A text without blanks is one word. -/
theorem words_of_solid {t : Text} (hne : t ≠ []) (h : ∀ c ∈ t, isBlank c = false) :
    words t = [t] := by
  unfold words
  rw [split_of_none h]
  simpa using hne

/-- The words of a text in which a blank follows one word. -/
theorem words_cons_word {w : Text} (hne : w ≠ []) (h : ∀ c ∈ w, isBlank c = false) {c : Char}
    (hc : isBlank c = true) (t : Text) : words (w ++ c :: t) = w :: words t := by
  rw [words_append_blank hc, words_of_solid hne h, List.singleton_append]

theorem words_eq_nil_iff {t : Text} : words t = [] ↔ ∀ c ∈ t, isBlank c = true := by
  refine ⟨fun h => ?_, fun h => by have := words_blanks_append h []; rwa [List.append_nil] at this⟩
  by_contra hne
  -- a word begins where the blanks at the front end, or where the text does
  have hsplit := List.takeWhile_append_dropWhile (p := isBlank) (l := t)
  have hd : t.dropWhile isBlank ≠ [] := fun hd => hne (List.dropWhile_eq_nil_iff.mp hd)
  rw [← hsplit, words_blanks_append fun c hc => List.mem_takeWhile_imp hc] at h
  obtain ⟨c, cs, hcs⟩ := List.exists_cons_of_ne_nil hd
  have hc : isBlank c = false := by
    have := List.head_dropWhile_not isBlank (l := t) hd
    simpa only [hcs, List.head_cons] using this
  rw [hcs, words, split_cons, if_neg (by simp [hc])] at h
  rcases hs : split isBlank cs with _ | ⟨p, ps⟩
  · exact split_ne_nil _ _ hs
  · rw [hs] at h
    simp [consHead] at h

theorem words_append_blanks {b : Text} (hb : ∀ c ∈ b, isBlank c = true) (a : Text) :
    words (a ++ b) = words a := by
  cases b with
  | nil => rw [List.append_nil]
  | cons c b =>
    have hnil : words b = [] := words_eq_nil_iff.mpr fun d hd => hb d (List.mem_cons_of_mem c hd)
    rw [words_append_blank (hb c List.mem_cons_self), hnil, List.append_nil]

theorem words_trimStart (t : Text) : words (trimStart t) = words t := by
  have hblank : ∀ c ∈ t.takeWhile isBlank, isBlank c = true := fun c hc => List.mem_takeWhile_imp hc
  have hsplit : t.takeWhile isBlank ++ trimStart t = t := List.takeWhile_append_dropWhile
  rw [← words_blanks_append hblank, hsplit]

/-- Blanks around a text are in none of its words. -/
theorem words_trim (t : Text) : words (trim t) = words t := by
  have hblank : ∀ c ∈ (trimStart t).rtakeWhile isBlank, isBlank c = true :=
    fun c hc => List.mem_rtakeWhile_imp hc
  have hsplit : trim t ++ (trimStart t).rtakeWhile isBlank = trimStart t :=
    List.rdropWhile_append_rtakeWhile
  rw [← words_trimStart t, ← hsplit, words_append_blanks hblank]

/-- A text ends in a run of characters that are not blank, perhaps an empty one. -/
theorem exists_solid_end (u : Text) : ∃ w p : Text, u = w ++ p ∧ (∀ c ∈ p, isBlank c = false) ∧
    ∀ y, words (w ++ y) = words w ++ words y := by
  induction u using List.reverseRecOn with
  | nil => exact ⟨[], [], rfl, (fun _ h => nomatch h), fun _ => rfl⟩
  | append_singleton u c ih =>
    by_cases hc : isBlank c = true
    · refine ⟨u ++ [c], [], (List.append_nil _).symm, (fun _ h => nomatch h), fun y => ?_⟩
      rw [List.append_assoc, List.singleton_append, words_append_blank hc, words_append_blank hc]
      exact congrArg (· ++ words y) (List.append_nil _).symm
    · obtain ⟨w, p, rfl, hp, hw⟩ := ih
      refine ⟨w, p ++ [c], List.append_assoc .., fun d hd => ?_, hw⟩
      rcases List.mem_append.mp hd with hd | hd
      · exact hp d hd
      · rw [List.mem_singleton.mp hd]
        exact Bool.not_eq_true _ ▸ hc

/-- A text begins with a run of characters that are not blank, perhaps an empty one. -/
theorem exists_solid_front : ∀ v : Text, ∃ q w : Text, v = q ++ w ∧
    (∀ c ∈ q, isBlank c = false) ∧ (w = [] ∨ ∃ b x, w = b :: x ∧ isBlank b = true)
  | [] => ⟨[], [], rfl, (fun _ h => nomatch h), Or.inl rfl⟩
  | c :: v => by
    by_cases hc : isBlank c = true
    · exact ⟨[], c :: v, rfl, (fun _ h => nomatch h), Or.inr ⟨c, v, rfl, hc⟩⟩
    · obtain ⟨q, w, rfl, hq, hw⟩ := exists_solid_front v
      exact ⟨c :: q, w, rfl, List.forall_mem_cons.mpr ⟨Bool.not_eq_true _ ▸ hc, hq⟩, hw⟩

/-! ### Texts with no blank in front -/

/-- The text does not begin with a blank. -/
def Flush (t : Text) : Prop := ∀ c ∈ t.head?, isBlank c = false

theorem flush_trimStart (t : Text) : Flush (trimStart t) := by
  intro c hc
  have := List.head?_dropWhile_not isBlank t
  rwa [show (t.dropWhile isBlank).head? = some c from hc] at this

theorem flush_trim (t : Text) : Flush (trim t) := by
  have hpre : trim t <+: trimStart t := by
    unfold trim trimEnd
    rw [← List.reverse_suffix, List.reverse_reverse]
    exact List.dropWhile_suffix _
  obtain ⟨u, hu⟩ := hpre
  intro c hc
  refine flush_trimStart t c ?_
  rw [← hu, List.head?_append, show (trim t).head? = some c from hc]
  rfl

/-- The first word of a text that begins with one. -/
theorem head?_words {t : Text} (h : Flush t) (hne : t ≠ []) :
    (words t).head? = some (t.takeWhile fun c => !isBlank c) := by
  have hsplit := List.takeWhile_append_dropWhile (p := fun c => !isBlank c) (l := t)
  have hsolid : ∀ c ∈ t.takeWhile (fun c => !isBlank c), isBlank c = false :=
    fun c hc => by simpa using List.mem_takeWhile_imp hc
  have hword : t.takeWhile (fun c => !isBlank c) ≠ [] := by
    obtain ⟨c, t', rfl⟩ := List.exists_cons_of_ne_nil hne
    rw [List.takeWhile_cons_of_pos (by simpa using h c rfl)]
    exact List.cons_ne_nil _ _
  cases hd : t.dropWhile fun c => !isBlank c with
  | nil =>
    rw [hd, List.append_nil] at hsplit
    conv_lhs => rw [← hsplit, words_of_solid hword hsolid]
    rfl
  | cons c r =>
    have hc : isBlank c = true := by
      have := List.head?_dropWhile_not (fun c => !isBlank c) t
      rw [hd] at this
      simpa using this
    rw [hd] at hsplit
    conv_lhs => rw [← hsplit, words_cons_word hword hsolid hc]
    rfl

/-! ### Runs of characters -/

/-- A list goes on with elements of one kind as far as it can. -/
theorem exists_span {α : Type} (p : α → Bool) (l : List α) : ∃ a b, l = a ++ b ∧
    (∀ c ∈ a, p c = true) ∧ ∀ c ∈ b.head?, p c = false := by
  refine ⟨l.takeWhile p, l.dropWhile p, List.takeWhile_append_dropWhile.symm,
    fun c hc => List.mem_takeWhile_imp hc, fun c hc => ?_⟩
  have hhead := List.head?_dropWhile_not p l
  rw [Option.mem_def.mp hc] at hhead
  simpa using hhead

theorem takeWhile_append_cons {p : Char → Bool} {c : Char} (h : p c = false) (b : Text) : ∀ a : Text,
    (a ++ c :: b).takeWhile p = a.takeWhile p
  | [] => by rw [List.nil_append, List.takeWhile_cons_of_neg (by simp [h])]; rfl
  | d :: a => by
    rw [List.cons_append, List.takeWhile_cons, List.takeWhile_cons, takeWhile_append_cons h b a]

theorem dropWhile_append_cons {p : Char → Bool} {c : Char} (h : p c = false) (b : Text) : ∀ a : Text,
    (a ++ c :: b).dropWhile p = a.dropWhile p ++ c :: b
  | [] => by rw [List.nil_append, List.dropWhile_cons_of_neg (by simp [h])]; rfl
  | d :: a => by
    rw [List.cons_append, List.dropWhile_cons, List.dropWhile_cons, dropWhile_append_cons h b a]
    split <;> rfl

/-! ### Trimming -/

/-- The text ends neither in a blank nor in a colon. -/
def Firm (t : Text) : Prop := ∀ c ∈ t.getLast?, isBlank c = false ∧ c ≠ ':'

theorem firm_nil : Firm [] := by
  intro c hc
  simp at hc

/-- What is left of a firm text is firm. -/
theorem Firm.of_append {t u : Text} (h : Firm (t ++ u)) : Firm u := by
  rcases List.eq_nil_or_concat u with rfl | ⟨u, d, rfl⟩
  · exact firm_nil
  · intro c hc
    rw [List.concat_eq_append] at h hc
    exact h c (by rw [List.getLast?_append_of_ne_nil _ (by simp)]; exact hc)

theorem Firm.append {u : Text} (h : Firm u) (hne : u ≠ []) (t : Text) : Firm (t ++ u) := by
  intro c hc
  exact h c (by rw [List.getLast?_append_of_ne_nil _ hne] at hc; exact hc)

theorem Firm.dropWhile {t : Text} (h : Firm t) (p : Char → Bool) : Firm (t.dropWhile p) := by
  rw [← List.takeWhile_append_dropWhile (p := p) (l := t)] at h
  exact h.of_append

theorem Firm.trimStart {t : Text} (h : Firm t) : Firm (trimStart t) := h.dropWhile isBlank

theorem Firm.dropWhile_ne_nil {t : Text} (h : Firm t) (hne : t ≠ []) :
    t.dropWhile isBlank ≠ [] := by
  intro hd
  obtain ⟨u, c, rfl⟩ := List.eq_nil_or_concat t |>.resolve_left hne
  rw [List.concat_eq_append] at h hd
  have h1 := (h c (by simp)).1
  have h2 := List.dropWhile_eq_nil_iff.mp hd c (by simp)
  rw [h1] at h2
  cases h2

theorem Firm.words_ne_nil {t : Text} (h : Firm t) (hne : t ≠ []) : words t ≠ [] := fun hw =>
  h.dropWhile_ne_nil hne (List.dropWhile_eq_nil_iff.mpr (words_eq_nil_iff.mp hw))

theorem Firm.trimEnd {t : Text} (h : Firm t) : trimEnd t = t := by
  rcases List.eq_nil_or_concat t with rfl | ⟨u, c, rfl⟩
  · rfl
  · rw [List.concat_eq_append] at h ⊢
    have hc := (h c (by simp)).1
    simp [Text.trimEnd, hc]

theorem trimEnd_append_blanks {b : Text} (hb : ∀ c ∈ b, isBlank c = true) (t : Text) :
    trimEnd (t ++ b) = trimEnd t := by
  unfold trimEnd
  rw [List.reverse_append, List.dropWhile_append_of_pos fun c hc => hb c (by simpa using hc)]

theorem trim_of_blank {b : Text} (hb : ∀ c ∈ b, isBlank c = true) : trim b = [] := by
  unfold trim trimStart
  rw [List.dropWhile_eq_nil_iff.mpr hb]
  rfl

/-- Blanks behind a firm text are trimmed off. -/
theorem trim_append_blanks {t b : Text} (h : Firm t) (hb : ∀ c ∈ b, isBlank c = true) :
    trim (t ++ b) = trimStart t := by
  by_cases hne : t = []
  · subst hne
    exact trim_of_blank hb
  · unfold trim trimStart
    rw [List.dropWhile_append, if_neg (by simpa using h.dropWhile_ne_nil hne),
      trimEnd_append_blanks hb, (h.dropWhile isBlank).trimEnd]

end DesignAtlas.Text
