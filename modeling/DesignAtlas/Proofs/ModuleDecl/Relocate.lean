import DesignAtlas.ModuleDecl
import DesignAtlas.Proofs.Token.Places

/-! # Declarations of tokens that stand elsewhere

Reading declarations looks at what the tokens are and copies their ends into the spans of a
declaration; it never looks at a place, nor at the limit of an `endmodule`. So tokens that are the
same but for their places (`Alike f`, where `f` moves a place) give the same attempts with the
places moved (`attempts_alike`). It follows that the ends of a declaration are ends of tokens
(`ends_of_tokens`). -/

namespace DesignAtlas

open List (Forall₂)

namespace ModuleDecl

/-- The declaration with its places moved. -/
def relocate (f : Position → Position) (d : ModuleDecl) : ModuleDecl where
  name := d.name
  nameSpan := d.nameSpan.relocate f
  parameterSpan := d.parameterSpan.map (Span.relocate f)
  pinSpan := d.pinSpan.map (Span.relocate f)
  bodySpan := d.bodySpan.relocate f

/-- The attempt with its places moved. -/
def Attempt.relocate (f : Position → Position) (a : Attempt) : Attempt :=
  ⟨a.keyword.relocate f, a.result.map (ModuleDecl.relocate f)⟩

/-- Two outcomes of which the second is the first with the places moved. -/
def Matches (f : Position → Position) (x y : Outcome) : Prop :=
  y.1 = x.1.map (relocate f) ∧ Forall₂ (Token.Alike f) x.2 y.2

/-! ### The readers, by what the first token is -/

section Equations

variable (name : String) (s : Span) (a b : Option Span) (t : Token) (ts : List Token)

theorem readBody_cons : readBody name s a b (t :: ts) =
    if t.payload = .symbol .semicolon then
      match ts.dropWhile fun t => t.payload != .keyword .endmodule with
      | [] => (.error (.endExpected name), [])
      | e :: rest => (.ok ⟨name, s, a, b, ⟨t.span.limit, e.span.start⟩⟩, rest)
    else (.error (.semicolonExpected name), t :: ts) := by
  obtain ⟨p, sp⟩ := t
  split_ifs with h
  · cases h; rfl
  · unfold readBody
    split
    · exact absurd (by simp_all) h
    · rfl

theorem readPins_cons : readPins name s a (t :: ts) =
    if t.payload = .symbol .openParen then
      match Token.closeParen? 0 ts with
      | none => (.error (.pinsOpen name), [])
      | some e => readBody name s a (some ⟨t.span.limit, e.close.span.start⟩) e.rest
    else readBody name s a none (t :: ts) := by
  obtain ⟨p, sp⟩ := t
  split_ifs with h
  · cases h; rfl
  · unfold readPins
    split
    · exact absurd (by simp_all) h
    · rfl

theorem readParameters_cons : readParameters name s (t :: ts) =
    if t.payload = .symbol .hash then
      match ts with
      | [] => (.error (.parenExpected name), [])
      | u :: us =>
        if u.payload = .symbol .openParen then
          match Token.closeParen? 0 us with
          | none => (.error (.parametersOpen name), [])
          | some e => readPins name s (some ⟨u.span.limit, e.close.span.start⟩) e.rest
        else (.error (.parenExpected name), u :: us)
    else readPins name s none (t :: ts) := by
  obtain ⟨p, sp⟩ := t
  split_ifs with h
  · cases h
    rcases ts with _ | ⟨⟨q, sq⟩, us⟩
    · rfl
    · simp only
      split_ifs with h'
      · cases h'; rfl
      · unfold readParameters
        split
        · exact absurd (by simp_all) h'
        · simp_all
        · simp_all
  · unfold readParameters
    split
    · exact absurd (by simp_all) h
    · exact absurd (by simp_all) h
    · rfl

theorem read_cons_identifier (h : t.payload = .identifier name) :
    read (t :: ts) = readParameters name t.span ts := by
  obtain ⟨p, sp⟩ := t
  cases h; rfl

theorem read_cons_other (h : ∀ n, t.payload ≠ .identifier n) :
    read (t :: ts) = (.error (.nameExpected t.payload), ts) := by
  obtain ⟨p, sp⟩ := t
  rcases p with n | _ | _ | _ | _ | _ | _ | _
  · exact absurd rfl (h n)
  all_goals rfl

end Equations

/-! ### Reading tokens that stand elsewhere -/

section Alike

variable {f : Position → Position} {ts ts' : List Token}

/-- Both cuts fail, or both succeed and the second is the first with the places moved. -/
def ClosesAlike (f : Position → Position) (x y : Option Token.Enclosed) : Prop :=
  (x = none ∧ y = none) ∨ ∃ e e', x = some e ∧ y = some e' ∧
    e'.close.span.start = f e.close.span.start ∧ Forall₂ (Token.Alike f) e.rest e'.rest

theorem ClosesAlike.map_cons {x y : Option Token.Enclosed} (h : ClosesAlike f x y) (t t' : Token) :
    ClosesAlike f (x.map (.cons t)) (y.map (.cons t')) := by
  rcases h with ⟨rfl, rfl⟩ | ⟨e, e', rfl, rfl, h⟩
  · exact Or.inl ⟨rfl, rfl⟩
  · exact Or.inr ⟨e.cons t, e'.cons t', rfl, rfl, h⟩

theorem closeParen?_alike (h : Forall₂ (Token.Alike f) ts ts') (depth : Nat) :
    ClosesAlike f (Token.closeParen? depth ts) (Token.closeParen? depth ts') := by
  induction h generalizing depth with
  | nil => exact Or.inl ⟨rfl, rfl⟩
  | @cons t t' ts ts' ht hts ih =>
    unfold Token.closeParen?
    rw [ht.isSymbol, ht.isSymbol]
    split_ifs with h1 h2
    · rcases depth with _ | d
      · exact Or.inr ⟨_, _, rfl, rfl, ht.start, hts⟩
      · exact (ih d).map_cons t t'
    · exact (ih (depth + 1)).map_cons t t'
    · exact (ih depth).map_cons t t'

theorem dropWhile_alike {p : Payload → Bool} : ∀ {ts ts' : List Token},
    Forall₂ (Token.Alike f) ts ts' →
      Forall₂ (Token.Alike f) (ts.dropWhile fun t => p t.payload)
        (ts'.dropWhile fun t => p t.payload)
  | [], [], .nil => .nil
  | t :: ts, t' :: ts', .cons ht hts => by
    rw [List.dropWhile_cons, List.dropWhile_cons, ht.payload]
    split_ifs
    · exact dropWhile_alike hts
    · exact .cons ht hts

theorem readBody_alike (h : Forall₂ (Token.Alike f) ts ts') (name : String) (s : Span)
    (a b : Option Span) :
    Matches f (readBody name s a b ts) (readBody name (s.relocate f) (a.map (Span.relocate f))
      (b.map (Span.relocate f)) ts') := by
  rcases h with _ | ⟨ht, hts⟩
  · exact ⟨rfl, .nil⟩
  rw [readBody_cons, readBody_cons, ht.payload]
  split_ifs with hsemi
  · have hdrop := dropWhile_alike (p := fun p => p != .keyword .endmodule) hts
    generalize List.dropWhile _ _ = us at hdrop ⊢
    generalize List.dropWhile _ _ = us' at hdrop ⊢
    rcases hdrop with _ | ⟨he, hrest⟩
    · exact ⟨rfl, .nil⟩
    · refine ⟨?_, hrest⟩
      simp only [Except.map, relocate, Span.relocate, he.start,
        ht.limit (by rw [hsemi]; simp)]
  · exact ⟨rfl, .cons ht hts⟩

theorem readPins_alike (h : Forall₂ (Token.Alike f) ts ts') (name : String) (s : Span)
    (a : Option Span) :
    Matches f (readPins name s a ts)
      (readPins name (s.relocate f) (a.map (Span.relocate f)) ts') := by
  rcases h with _ | ⟨ht, hts⟩
  · exact ⟨rfl, .nil⟩
  rw [readPins_cons, readPins_cons, ht.payload]
  split_ifs with hopen
  · rcases closeParen?_alike hts 0 with ⟨h1, h2⟩ | ⟨e, e', h1, h2, h3, h4⟩
    · rw [h1, h2]; exact ⟨rfl, .nil⟩
    · rw [h1, h2]
      simp only [h3, ht.limit (by rw [hopen]; simp)]
      exact readBody_alike h4 name s a (some ⟨_, _⟩)
  · exact readBody_alike (.cons ht hts) name s a none

theorem readParameters_alike (h : Forall₂ (Token.Alike f) ts ts') (name : String) (s : Span) :
    Matches f (readParameters name s ts) (readParameters name (s.relocate f) ts') := by
  rcases h with _ | ⟨ht, hts⟩
  · exact ⟨rfl, .nil⟩
  rw [readParameters_cons, readParameters_cons, ht.payload]
  split_ifs with hhash
  · rcases hts with _ | ⟨hu, hus⟩
    · exact ⟨rfl, .nil⟩
    simp only
    rw [hu.payload]
    split_ifs with hopen
    · rcases closeParen?_alike hus 0 with ⟨h1, h2⟩ | ⟨e, e', h1, h2, h3, h4⟩
      · rw [h1, h2]; exact ⟨rfl, .nil⟩
      · rw [h1, h2]
        simp only [h3, hu.limit (by rw [hopen]; simp)]
        exact readPins_alike h4 name s (some ⟨_, _⟩)
    · exact ⟨rfl, .cons hu hus⟩
  · exact readPins_alike (.cons ht hts) name s none

theorem read_alike (h : Forall₂ (Token.Alike f) ts ts') : Matches f (read ts) (read ts') := by
  rcases h with _ | ⟨ht, hts⟩
  · exact ⟨rfl, .nil⟩
  rename_i t t' us us'
  by_cases hid : ∃ n, t.payload = .identifier n
  · obtain ⟨n, hn⟩ := hid
    rw [read_cons_identifier n t us hn, read_cons_identifier n t' us' (by rw [ht.payload, hn]),
      ht.span (by rw [hn]; simp)]
    exact readParameters_alike hts n t.span
  · have hid' : ∀ n, t.payload ≠ .identifier n := fun n hn => hid ⟨n, hn⟩
    rw [read_cons_other t us hid', read_cons_other t' us' (by rw [ht.payload]; exact hid'),
      ht.payload]
    exact ⟨rfl, hts⟩

theorem attempts_cons (t : Token) (ts : List Token) :
    attempts (t :: ts) =
      if isModuleKeyword t then ⟨t.span, (read ts).1⟩ :: attempts (read ts).2 else attempts ts := by
  rw [attempts]

theorem isModuleKeyword_alike {t t' : Token} (h : Token.Alike f t t') :
    isModuleKeyword t' = isModuleKeyword t := by
  unfold isModuleKeyword
  rw [h.payload]

/-- **Attempts move with the tokens.** -/
theorem attempts_alike (h : Forall₂ (Token.Alike f) ts ts') :
    attempts ts' = (attempts ts).map (Attempt.relocate f) := by
  -- the recursion of `attempts`: behind the keyword, or behind the tokens that an attempt took
  induction ts using attempts.induct generalizing ts' with
  | case1 => cases h; simp [attempts]
  | case2 t ts hk ih =>
    rcases h with _ | ⟨ht, hts⟩
    rename_i t' ts'
    obtain ⟨h1, h2⟩ := read_alike hts
    have hspan : t'.span = t.span.relocate f := by
      refine ht.span ?_
      intro he
      simp [isModuleKeyword, he] at hk
    rw [attempts_cons, attempts_cons, isModuleKeyword_alike ht, if_pos hk, if_pos hk,
      List.map_cons, ih h2, h1, hspan]
    rfl
  | case3 t ts hk ih =>
    rcases h with _ | ⟨ht, hts⟩
    rename_i t' ts'
    rw [attempts_cons, attempts_cons, isModuleKeyword_alike ht, if_neg hk, if_neg hk, ih hts]

theorem succeeded_relocate (as : List Attempt) :
    succeeded (as.map (Attempt.relocate f)) = (succeeded as).map (relocate f) := by
  unfold succeeded
  rw [List.filterMap_map, List.map_filterMap]
  congr 1
  funext a
  obtain ⟨k, r⟩ := a
  cases r <;> rfl

end Alike

/-! ### The parts of a declaration that stands behind a text -/

section Behind

variable {q : Position} {a : Text} (hq : q.offset = a.byteLength) (b : Text) (d : ModuleDecl)
include hq

theorem parameterBlock?_behind :
    (d.relocate (Position.behind q)).parameterBlock? (a ++ b) = d.parameterBlock? b := by
  unfold parameterBlock? relocate
  rcases d.parameterSpan with _ | s
  · rfl
  · simp only [Option.map_some, Span.slice_behind hq]

theorem pinList_behind : (d.relocate (Position.behind q)).pinList (a ++ b) = d.pinList b := by
  unfold pinList relocate
  rcases d.pinSpan with _ | s
  · rfl
  · simp only [Option.map_some, Span.slice_behind hq]

theorem body_behind : (d.relocate (Position.behind q)).body (a ++ b) = d.body b :=
  Span.slice_behind hq d.bodySpan b

end Behind

/-! ### The ends of a declaration -/

/-- All ends of the declaration's texts satisfy `P`. -/
structure Ends (P : Position → Prop) (d : ModuleDecl) : Prop where
  parameters : ∀ s, d.parameterSpan = some s → P s.start ∧ P s.limit
  pins : ∀ s, d.pinSpan = some s → P s.start ∧ P s.limit
  body : P d.bodySpan.start ∧ P d.bodySpan.limit

theorem ends_relocate {P : Position → Prop} {f : Position → Position} (hf : ∀ p, P (f p))
    (d : ModuleDecl) : Ends P (d.relocate f) := by
  refine ⟨fun s hs => ?_, fun s hs => ?_, hf _, hf _⟩
  · obtain ⟨s', -, rfl⟩ := Option.map_eq_some_iff.mp hs
    exact ⟨hf _, hf _⟩
  · obtain ⟨s', -, rfl⟩ := Option.map_eq_some_iff.mp hs
    exact ⟨hf _, hf _⟩

open Classical in
/-- **What holds of all ends of tokens holds of the ends of declarations.** -/
theorem ends_of_tokens {P : Position → Prop} {p₀ : Position} (h₀ : P p₀) {ts : List Token}
    (h : ∀ t ∈ ts, P t.span.start ∧ P t.span.limit) {d : ModuleDecl}
    (hd : d ∈ succeeded (attempts ts)) : Ends P d := by
  -- moving the places without `P` to `p₀` moves no token, hence no declaration
  set f : Position → Position := fun p => if P p then p else p₀ with hfdef
  have hfP : ∀ p, P (f p) := by
    intro p; simp only [hfdef]; split_ifs with hp
    · exact hp
    · exact h₀
  have hfix : ∀ p, P p → f p = p := fun p hp => if_pos hp
  have hal : Forall₂ (Token.Alike f) ts ts := by
    rw [List.forall₂_same]
    intro t ht
    exact ⟨rfl, (hfix _ (h t ht).1).symm, fun _ => (hfix _ (h t ht).2).symm⟩
  rw [attempts_alike hal, succeeded_relocate] at hd
  obtain ⟨d', -, rfl⟩ := List.mem_map.mp hd
  exact ends_relocate hfP d'

end ModuleDecl

end DesignAtlas
