import DesignAtlas.Proofs.Statement.Place

/-! # The statements of a body are the pieces of its code

The code of a line is told without reading it: it is the line up to the first place where a
directive word begins (`Directive.IsCode`). The statements of a body are, one by one and in order,
the pieces between the semicolons of the lines of code (`Statement.ofBody_pieces`): each is trimmed,
and the words in front that end tasks or functions are cut off with their labels
(`Statement.Strips`). So no statement holds a semicolon or a directive word. -/

namespace DesignAtlas

open List (Forall₂)
open Text (split)

/-! ### Directive words -/

namespace Directive

/-- The text begins with a backtick and the name of a directive. -/
def BeginsWord (t : Text) : Prop :=
  ∃ u, t = '\x60' :: u ∧ (extent? (String.ofList (u.takeWhile isDirectiveChar))).isSome = true

/-- No directive word begins in the text. -/
def Free (t : Text) : Prop := ∀ u, u <:+ t → ¬ BeginsWord u

/-- `code` is the line up to the first place where a directive word begins. -/
structure IsCode (line code : Text) : Prop where
  upTo : ∃ rest, line = code ++ rest ∧ (rest = [] ∨ BeginsWord rest)
  first : ∀ a b, line = a ++ b → BeginsWord b → code.length ≤ a.length

theorem beginsWord_cons {d : Char} {t : Text} :
    BeginsWord (d :: t) ↔ d = '\x60' ∧ (ofText? t).isSome = true := by
  have hname : (ofText? t).isSome =
      (extent? (String.ofList (t.takeWhile isDirectiveChar))).isSome := by
    rw [← Option.isSome_map, name_ofText?, Option.isSome_map]
  constructor
  · rintro ⟨u, hu, h⟩
    obtain ⟨rfl, rfl⟩ := List.cons.inj hu
    exact ⟨rfl, hname.trans h⟩
  · rintro ⟨rfl, h⟩
    exact ⟨t, rfl, hname.symm.trans h⟩

theorem not_beginsWord_nil : ¬ BeginsWord [] := by
  rintro ⟨u, hu, -⟩
  cases hu

/-- A character that is in no name ends a directive word. -/
theorem beginsWord_append_cons {c : Char} (hc : isDirectiveChar c = false) (d : Char) (a b : Text) :
    BeginsWord (d :: (a ++ c :: b)) ↔ BeginsWord (d :: a) := by
  have hname : (ofText? (a ++ c :: b)).isSome = (ofText? a).isSome := by
    rw [← Option.isSome_map, name_ofText?_append_cons hc, Option.isSome_map]
  rw [beginsWord_cons, beginsWord_cons, hname]

/-! ### Texts without directive words -/

theorem free_nil : Free [] := fun u hu => by
  rw [List.suffix_nil.mp hu]
  exact not_beginsWord_nil

theorem Free.of_suffix {t u : Text} (h : Free t) (hu : u <:+ t) : Free u :=
  fun _ hv => h _ (hv.trans hu)

theorem free_cons {d : Char} {t : Text} : Free (d :: t) ↔ ¬ BeginsWord (d :: t) ∧ Free t := by
  refine ⟨fun h => ⟨h _ List.suffix_rfl, h.of_suffix (List.suffix_cons d t)⟩, fun h u hu => ?_⟩
  rcases List.suffix_cons_iff.mp hu with rfl | hu
  · exact h.1
  · exact h.2 u hu

/-- A character that is in no directive word leaves none across it. -/
theorem free_append_cons {c : Char} (hc : isDirectiveChar c = false) (hne : c ≠ '\x60') (b : Text) :
    ∀ a : Text, Free (a ++ c :: b) ↔ Free a ∧ Free b
  | [] => by
    rw [List.nil_append, free_cons, beginsWord_cons]
    simp [hne, free_nil]
  | d :: a => by
    rw [List.cons_append, free_cons, free_cons, beginsWord_append_cons hc, free_append_cons hc hne b,
      and_assoc]

theorem isDirectiveChar_of_isBlank {c : Char} (h : isBlank c = true) :
    isDirectiveChar c = false ∧ c ≠ '\x60' := by
  constructor
  · have hword := isWordChar_of_isBlank h
    rw [isWordChar, Bool.or_eq_false_iff] at hword
    exact hword.1
  · rintro rfl
    exact absurd h (by decide)

theorem Free.trim {t : Text} (h : Free t) : Free (Text.trim t) := by
  obtain ⟨lead, trail, ht, -, htrail⟩ := Text.exists_trim t
  have hback : Free (Text.trim t ++ trail) := h.of_suffix ⟨lead, ht.symm⟩
  cases trail with
  | nil => rwa [List.append_nil] at hback
  | cons c u =>
    obtain ⟨hc, hne⟩ := isDirectiveChar_of_isBlank (htrail c List.mem_cons_self)
    exact ((free_append_cons hc hne u _).mp hback).1

theorem free_intercalate : ∀ {ts : List Text}, (∀ t ∈ ts, Free t) →
    Free (List.intercalate ['\n'] ts)
  | [], _ => free_nil
  | [t], h => by
    rw [List.intercalate_singleton]
    exact h t List.mem_cons_self
  | t :: u :: ts, h => by
    obtain ⟨ht, hts⟩ := List.forall_mem_cons.mp h
    rw [List.intercalate_cons_cons, List.append_assoc, List.singleton_append,
      free_append_cons (by decide) (by decide)]
    exact ⟨ht, free_intercalate hts⟩

/-- The pieces of a text without directive words have none. -/
theorem Free.of_mem_split {sep : Char → Bool}
    (hsep : ∀ c, sep c = true → isDirectiveChar c = false ∧ c ≠ '\x60') {t p : Text} (h : Free t)
    (hp : p ∈ split sep t) : Free p := by
  obtain ⟨l, ls, hl, ⟨ht, hls⟩ | ⟨c, u, hc, ht, hls⟩⟩ := Text.exists_split_eq_cons sep t
  · rw [hl, hls, List.mem_singleton] at hp
    rwa [hp, ← ht]
  · obtain ⟨hname, hne⟩ := hsep c hc
    have hlength : u.length < t.length := by
      rw [ht, List.length_append, List.length_cons]
      omega
    rw [ht, free_append_cons hname hne] at h
    rw [hl, hls] at hp
    rcases List.mem_cons.mp hp with rfl | hp
    · exact h.1
    · exact h.2.of_mem_split hsep hp
  termination_by t.length

/-! ### The code of a line -/

theorem cut_cons_of_not_beginsWord {d : Char} {t : Text} (h : ¬ BeginsWord (d :: t)) :
    cut (d :: t) = (d :: (cut t).1, (cut t).2) := by
  by_cases hd : d = '\x60'
  · subst hd
    rw [beginsWord_cons, not_and, Option.not_isSome_iff_eq_none] at h
    exact cut_backtick_of_none (h rfl)
  · exact cut_cons_of_ne hd t

/-- A text without directive words is code as it stands. -/
theorem free_iff : ∀ {t : Text}, Free t ↔ cut t = (t, none)
  | [] => iff_of_true free_nil rfl
  | d :: t => by
    by_cases hd : BeginsWord (d :: t)
    · obtain ⟨rfl, hsome⟩ := beginsWord_cons.mp hd
      obtain ⟨e, he⟩ := Option.isSome_iff_exists.mp hsome
      rw [cut_backtick_of_some he]
      exact iff_of_false (fun h => (free_cons.mp h).1 hd) (by simp)
    · rw [free_cons, free_iff, cut_cons_of_not_beginsWord hd]
      simp [hd, Prod.ext_iff]

instance (t : Text) : Decidable (Free t) := decidable_of_iff _ free_iff.symm

theorem isCode_cut : ∀ line : Text, IsCode line (cut line).1
  | [] => ⟨⟨[], rfl, Or.inl rfl⟩, fun a _ _ _ => Nat.zero_le a.length⟩
  | d :: t => by
    by_cases hd : BeginsWord (d :: t)
    · obtain ⟨rfl, hsome⟩ := beginsWord_cons.mp hd
      obtain ⟨e, he⟩ := Option.isSome_iff_exists.mp hsome
      rw [cut_backtick_of_some he]
      exact ⟨⟨_, rfl, Or.inr hd⟩, fun a _ _ _ => Nat.zero_le a.length⟩
    · have hcut := congrArg Prod.fst (cut_cons_of_not_beginsWord hd)
      obtain ⟨⟨rest, ht, hrest⟩, hfirst⟩ := isCode_cut t
      refine ⟨⟨rest, ?_, hrest⟩, fun a b hab hb => ?_⟩
      · rw [hcut, List.cons_append, ← ht]
      · -- the word does not begin at the first character, so it begins behind it
        cases a with
        | nil => exact absurd (show BeginsWord (d :: t) from hab ▸ hb) hd
        | cons e a =>
          rw [hcut, List.length_cons, List.length_cons]
          exact Nat.succ_le_succ (hfirst a b (List.cons.inj hab).2 hb)

theorem IsCode.length_le {line code code' : Text} (h : IsCode line code) (h' : IsCode line code') :
    code.length ≤ code'.length := by
  obtain ⟨rest', hline, rfl | hrest⟩ := h'.upTo
  · obtain ⟨rest, hline', -⟩ := h.upTo
    rw [← List.append_nil code', ← hline, hline', List.length_append]
    exact Nat.le_add_right _ _
  · exact h.first code' rest' hline hrest

/-- **A line has one code**, the one that is cut off it. -/
theorem isCode_iff {line code : Text} : IsCode line code ↔ (cut line).1 = code := by
  refine ⟨fun h => ?_, fun h => h ▸ isCode_cut line⟩
  obtain ⟨rest, hline, -⟩ := h.upTo
  obtain ⟨rest', hline', -⟩ := (isCode_cut line).upTo
  have hlength := Nat.le_antisymm ((isCode_cut line).length_le h) (h.length_le (isCode_cut line))
  exact (List.append_inj (hline'.symm.trans hline) hlength).1

theorem IsCode.free {line code : Text} (h : IsCode line code) : Free code := by
  rintro u ⟨a, hu⟩ hword
  obtain ⟨rest, hline, hrest⟩ := h.upTo
  have hne : u ≠ [] := fun hnil => not_beginsWord_nil (hnil ▸ hword)
  -- the directive word of the line, if there is one, begins with a backtick and is no part of this
  have hlong : BeginsWord (u ++ rest) := by
    obtain ⟨d, v, rfl⟩ := List.exists_cons_of_ne_nil hne
    rcases hrest with rfl | ⟨w, rfl, -⟩
    · rwa [List.append_nil]
    · exact (beginsWord_append_cons (by decide) d v w).mpr hword
  have hle := h.first a (u ++ rest) (by rw [hline, ← hu, List.append_assoc]) hlong
  rw [← hu, List.length_append] at hle
  have hpos := List.length_pos_iff.mpr hne
  omega

end Directive

/-! ### The words in front of a statement -/

namespace Statement

/-- The words that end tasks and functions. -/
def endWords : List Text := ["endtask".toList, "endfunction".toList]

/-- The text begins with a word that ends a task or function, and `r` is what follows it, and the
label behind it if there is a colon. A label goes as far as letters, digits, underscores and dollars
do, and a gap as far as blanks do. -/
inductive Sheds : Text → Text → Prop where
  | bare {w gap r : Text} (word : w ∈ endWords) (blank : ∀ c ∈ gap, isBlank c = true)
    (delimited : gap = [] → r = []) (flush : r.Flush) (colon : r.head? ≠ some ':') :
    Sheds (w ++ (gap ++ r)) r
  | labelled {w gap lead label trail r : Text} (word : w ∈ endWords)
    (blank : ∀ c ∈ gap, isBlank c = true) (delimited : gap ≠ [])
    (blankLead : ∀ c ∈ lead, isBlank c = true) (leadEnds : (label ++ (trail ++ r)).Flush)
    (wordLabel : ∀ c ∈ label, isWordChar c = true)
    (labelEnds : ∀ c ∈ (trail ++ r).head?, isWordChar c = false)
    (blankTrail : ∀ c ∈ trail, isBlank c = true) (flush : r.Flush) :
    Sheds (w ++ (gap ++ ':' :: (lead ++ (label ++ (trail ++ r))))) r

/-- `r` is the text without the words in front that end tasks or functions and their labels. -/
inductive Strips : Text → Text → Prop where
  | done {t : Text} (first : ∀ w ∈ (Text.words t).head?, w ∉ endWords) : Strips t t
  | shed {t u r : Text} (front : Sheds t u) (rest : Strips u r) : Strips t r

theorem ofList_endWords {w : Text} :
    (String.ofList w = "endtask" ∨ String.ofList w = "endfunction") ↔ w ∈ endWords := by
  rw [endWords, List.mem_cons, List.mem_singleton]
  constructor
  · rintro (h | h)
    · exact Or.inl (by rw [← h, String.toList_ofList])
    · exact Or.inr (by rw [← h, String.toList_ofList])
  · rintro (rfl | rfl)
    · exact Or.inl String.ofList_toList
    · exact Or.inr String.ofList_toList

theorem solid_of_mem_endWords {w : Text} (h : w ∈ endWords) : ∀ c ∈ w, (!isBlank c) = true := by
  have hall : (endWords.all fun w => w.all fun c => !isBlank c) = true := by decide +kernel
  exact List.all_eq_true.mp (List.all_eq_true.mp hall w h)

/-- A word ends where a blank follows it or the text ends. -/
theorem firstWord_delimited {w gap r : Text} (solid : ∀ c ∈ w, (!isBlank c) = true)
    (blank : ∀ c ∈ gap, isBlank c = true) (delimited : gap = [] → r = []) :
    firstWord (w ++ (gap ++ r)) = String.ofList w ∧
      (w ++ (gap ++ r)).dropWhile (fun c => !isBlank c) = gap ++ r := by
  have hstop : ∀ c ∈ (gap ++ r).head?, (!isBlank c) = false := by
    intro c hc
    cases gap with
    | nil =>
      rw [delimited rfl] at hc
      cases hc
    | cons d gap =>
      obtain rfl : d = c := Option.some.inj hc
      rw [blank d List.mem_cons_self]
      rfl
  obtain ⟨htake, hdrop⟩ := Text.span_exact solid hstop
  exact ⟨congrArg String.ofList htake, hdrop⟩

/-- What follows a word in front that ends a task or function. -/
theorem afterEnd?_word {w gap r : Text} (solid : ∀ c ∈ w, (!isBlank c) = true)
    (blank : ∀ c ∈ gap, isBlank c = true) (delimited : gap = [] → r = []) (flush : r.Flush) :
    afterEnd? (w ++ (gap ++ r)) = if w ∈ endWords then some (dropLabel r) else none := by
  obtain ⟨hfirst, hrest⟩ := firstWord_delimited solid blank delimited
  rw [afterEnd?, hfirst, hrest, Text.trimStart, (Text.span_exact blank flush).2]
  exact if_congr ofList_endWords rfl rfl

theorem dropLabel_of_ne {r : Text} (h : r.head? ≠ some ':') : dropLabel r = r := by
  unfold dropLabel
  split
  · exact absurd rfl h
  · rfl

theorem dropLabel_colon {lead label trail r : Text} (blankLead : ∀ c ∈ lead, isBlank c = true)
    (leadEnds : (label ++ (trail ++ r)).Flush) (wordLabel : ∀ c ∈ label, isWordChar c = true)
    (labelEnds : ∀ c ∈ (trail ++ r).head?, isWordChar c = false)
    (blankTrail : ∀ c ∈ trail, isBlank c = true) (flush : r.Flush) :
    dropLabel (':' :: (lead ++ (label ++ (trail ++ r)))) = r := by
  rw [dropLabel, Text.trimStart, Text.trimStart, (Text.span_exact blankLead leadEnds).2,
    (Text.span_exact wordLabel labelEnds).2, (Text.span_exact blankTrail flush).2]

/-- **What is cut off the front of a statement** is a word that ends a task or function, and its
label. -/
theorem sheds_iff {t r : Text} : Sheds t r ↔ afterEnd? t = some r := by
  constructor
  · intro h
    cases h with
    | bare word blank delimited flush colon =>
      rw [afterEnd?_word (solid_of_mem_endWords word) blank delimited flush, if_pos word,
        dropLabel_of_ne colon]
    | labelled word blank delimited blankLead leadEnds wordLabel labelEnds blankTrail flush =>
      rw [afterEnd?_word (solid_of_mem_endWords word) blank (fun h => absurd h delimited)
        (by rintro c ⟨⟩; decide), if_pos word,
        dropLabel_colon blankLead leadEnds wordLabel labelEnds blankTrail flush]
  · intro h
    obtain ⟨w, u, rfl, solid, hu⟩ := Text.exists_span (fun c => !isBlank c) t
    obtain ⟨gap, v, rfl, blank, flush⟩ := Text.exists_span isBlank u
    -- the gap begins where the word ends, if the text goes on there
    have delimited : gap = [] → v = [] := by
      rintro rfl
      cases v with
      | nil => rfl
      | cons d v => exact absurd (flush d rfl) (by simpa using hu d rfl)
    rw [afterEnd?_word solid blank delimited flush] at h
    split_ifs at h with word
    obtain rfl := Option.some.inj h
    by_cases colon : v.head? = some ':'
    · obtain ⟨x, rfl⟩ := List.head?_eq_some_iff.mp colon
      obtain ⟨lead, y, rfl, blankLead, leadEnds⟩ := Text.exists_span isBlank x
      obtain ⟨label, z, rfl, wordLabel, labelEnds⟩ := Text.exists_span isWordChar y
      obtain ⟨trail, r, rfl, blankTrail, flush⟩ := Text.exists_span isBlank z
      rw [dropLabel_colon blankLead leadEnds wordLabel labelEnds blankTrail flush]
      exact .labelled word blank (fun hnil => nomatch delimited hnil) blankLead leadEnds wordLabel
        labelEnds blankTrail flush
    · rw [dropLabel_of_ne colon]
      exact .bare word blank delimited flush colon

/-- The first word of a text tells whether words are cut off its front. -/
theorem afterEnd?_eq_none_iff {t : Text} (ht : t.Flush) :
    afterEnd? t = none ↔ ∀ w ∈ (Text.words t).head?, w ∉ endWords := by
  have hnone : afterEnd? t = none ↔ t.takeWhile (fun c => !isBlank c) ∉ endWords := by
    rw [afterEnd?, firstWord, ← ofList_endWords]
    split_ifs with h <;> simp [h]
  rw [hnone]
  by_cases hnil : t = []
  · subst hnil
    refine iff_of_true (by decide +kernel) ?_
    rintro w ⟨⟩
  · rw [Text.head?_words ht hnil]
    simp

/-- **The words that end tasks and functions are stripped off the front of a text.** -/
theorem strips_iff {t r : Text} (ht : t.Flush) : Strips t r ↔ (dropEnds t).2 = r := by
  constructor
  · intro h
    induction h with
    | done first => rw [dropEnds_of_none ((afterEnd?_eq_none_iff ht).mpr first)]
    | shed front rest ih =>
      have hshed := sheds_iff.mp front
      rw [dropEnds_of_some hshed]
      exact ih (Checked.flush_afterEnd? hshed)
  · rintro rfl
    fun_induction dropEnds t with
    | case1 t h => exact .done ((afterEnd?_eq_none_iff ht).mp h)
    | case2 t r h ih => exact .shed (sheds_iff.mpr h) (ih (Checked.flush_afterEnd? h))

/-! ### The statements of a body -/

/-- The statement is what a piece of code says: its text is the piece, trimmed and stripped in
front. -/
structure IsPiece (piece : Text) (s : Statement) : Prop where
  text : ∀ r, Strips (Text.trim piece) r ↔ s.text = r
  trimmed : s.text.Trimmed
  semicolon : ';' ∉ s.text
  directive : Directive.Free s.text

theorem isPiece_of_text {piece : Text} {s : Statement} (hsep : ';' ∉ piece)
    (hfree : Directive.Free piece) (hs : s.text = (dropEnds (Text.trim piece)).2) :
    IsPiece piece s := by
  have hsuffix : s.text <:+ Text.trim piece := hs ▸ dropEnds_suffix _
  refine ⟨fun r => ?_, hs ▸ trimmed_dropEnds (Text.trimmed_trim piece), fun hmem => ?_,
    hfree.trim.of_suffix hsuffix⟩
  · rw [strips_iff (Text.flush_trim piece), hs]
  · obtain ⟨lead, trail, hpiece, -, -⟩ := Text.exists_trim piece
    refine hsep (hpiece ▸ ?_)
    exact List.mem_append_right _ (List.mem_append_left _ (hsuffix.subset hmem))

theorem map_text_ofFragments : ∀ (depth : Nat) (fs : List Fragment),
    (ofFragments depth fs).map text =
      (fs.map Fragment.text).map fun p => (dropEnds (Text.trim p)).2
  | _, [] => rfl
  | depth, f :: fs => congrArg _ (map_text_ofFragments (depthBehind depth f) fs)

/-- Lines with a newline behind each are lines with newlines between them, and one behind them. -/
theorem flatMap_newline : ∀ {ls : List Text}, ls ≠ [] →
    ls.flatMap (· ++ ['\n']) = List.intercalate ['\n'] ls ++ ['\n']
  | [], h => absurd rfl h
  | [l], _ => by rw [List.flatMap_singleton, List.intercalate_singleton]
  | l :: m :: ls, _ => by
    rw [List.flatMap_cons, flatMap_newline (List.cons_ne_nil m ls), List.intercalate_cons_cons,
      List.append_assoc, List.append_assoc, List.append_assoc]

/-- The texts of statements are the pieces of the code, with the newline behind it or without. -/
theorem map_text_ofBody (o : Options) {body c : Text} (h : code body = c ++ ['\n']) :
    (ofBody o body).map text =
      (split (· == ';') c).map fun p => (dropEnds (Text.trim p)).2 := by
  have hpieces := Fragment.map_text_ofPieces (Piece.ofBody body)
    (ConditionStack.empty o.elsePolicy) none []
  obtain ⟨ps, p, hc⟩ := Text.exists_split_eq_concat (· == ';') c
  rw [filterMap_char?_ofBody, h, split_newline hc] at hpieces
  have hid : ∀ l : List Text, l.modifyHead ([].reverse ++ ·) = l := fun l => by cases l <;> rfl
  rw [ofBody, map_text_ofFragments, hpieces, hid, hc, List.map_append, List.map_append,
    List.map_singleton, List.map_singleton, Text.trim_append_of_blank blank_newline]

/-- **The statements of a body are the pieces of its code**: its lines, each up to the first
directive word, are put together and cut at the semicolons, and each piece is one statement. -/
theorem ofBody_pieces (o : Options) (body : Text) :
    ∃ codes, Forall₂ Directive.IsCode (Text.lines body) codes ∧
      Forall₂ IsPiece (split (· == ';') (List.intercalate ['\n'] codes)) (ofBody o body) := by
  have hcodes : Forall₂ Directive.IsCode (Text.lines body)
      ((Text.lines body).map fun line => (Directive.cut line).1) :=
    List.forall₂_map_right_iff.mpr (List.forall₂_same.mpr fun line _ => Directive.isCode_cut line)
  refine ⟨_, hcodes, ?_⟩
  have hfree : Directive.Free
      (List.intercalate ['\n'] ((Text.lines body).map fun line => (Directive.cut line).1)) := by
    refine Directive.free_intercalate fun code hcode => ?_
    obtain ⟨line, -, rfl⟩ := List.mem_map.mp hcode
    exact (Directive.isCode_cut line).free
  have hcode : code body =
      List.intercalate ['\n'] ((Text.lines body).map fun line => (Directive.cut line).1) ++
        ['\n'] := by
    rw [← flatMap_newline, List.flatMap_map]
    · rfl
    · exact fun hnil => Text.split_ne_nil _ _ (List.map_eq_nil_iff.mp hnil)
  have htexts := (map_text_ofBody o hcode).symm
  rw [← List.forall₂_eq_eq_eq, List.forall₂_map_left_iff, List.forall₂_map_right_iff] at htexts
  have hpieces : ∀ p ∈ split (· == ';') (List.intercalate ['\n']
      ((Text.lines body).map fun line => (Directive.cut line).1)), ';' ∉ p ∧ Directive.Free p := by
    refine fun p hp => ⟨fun hmem => ?_, hfree.of_mem_split (fun c hc => ?_) hp⟩
    · exact absurd (Text.sep_of_mem_split hp _ hmem) (by decide)
    · obtain rfl : c = ';' := by simpa using hc
      decide
  exact ((List.forall₂_and_left _ _).mpr ⟨hpieces, htexts⟩).imp fun p s h =>
    isPiece_of_text h.1.1 h.1.2 h.2.symm

/-- Two words in front are stripped, the second with its label. -/
example : (ofBody {} "endtask endfunction : f x;`ifdef A\n".toList).map text =
    ["x".toList, []] := by decide +kernel

end Statement

end DesignAtlas
