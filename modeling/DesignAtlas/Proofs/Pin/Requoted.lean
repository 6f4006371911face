import DesignAtlas.Proofs.Pin.Skeleton
import DesignAtlas.Proofs.Roster.Map
import DesignAtlas.Proofs.Token.Literal

/-! # Pins of statements with another content in a literal

Names, directions and types of pins hold no string literals, and their sizes are texts of ranges. So
the pins stated by two statements whose tokens correspond differ at most in the content of a literal
in a size (`PinDecl.forall₂_pinsOf`), and so do the pins that the statements leave
(`PinDecl.rel_refine?`). -/

namespace DesignAtlas

open List (Forall₂)
open Text (literal Correspond)

/-- The sizes differ at most in the content of one literal, of which they have no blanks. -/
def Text.RequotedSize (c c' : Text) (s s' : Option String) : Prop :=
  s' = s ∨ ∃ x y : Text, s = some (String.ofList (x ++ squeeze (literal c) ++ y)) ∧
    s' = some (String.ofList (x ++ squeeze (literal c') ++ y))

/-- The declarations differ at most in the content of a literal in their sizes. -/
structure PinDecl.Requoted (c c' : Text) (d d' : PinDecl) : Prop where
  name : d'.name = d.name
  direction : d'.direction = d.direction
  dataType : d'.dataType = d.dataType
  size : Text.RequotedSize c c' d.size d'.size

/-- The pins differ at most in the content of a literal in their sizes; where `K` holds, their
conditions are the same. -/
structure Pin.Requoted (K : Prop) (c c' : Text) (p p' : Pin) : Prop where
  name : p'.name = p.name
  direction : p'.direction = p.direction
  dataType : p'.dataType = p.dataType
  size : Text.RequotedSize c c' p.size p'.size
  conditionals : K → p'.conditionals = p.conditionals

variable {K : Prop} {c c' t t' : Text} {f : Token → Token}

theorem Pin.Requoted.refl (K : Prop) (c c' : Text) (p : Pin) : p.Requoted K c c' p :=
  ⟨rfl, rfl, rfl, Or.inl rfl, fun _ => rfl⟩

theorem Pin.relatesNames_requoted : Roster.RelatesNames (Pin.Requoted K c c') :=
  fun _ _ h => h.name

theorem Text.RequotedSize.isSome {s s' : Option String} (h : RequotedSize c c' s s') :
    s'.isSome = s.isSome := by
  rcases h with rfl | ⟨x, y, rfl, rfl⟩
  · rfl
  · rfl

/-- The text of corresponding ranges. -/
theorem Text.Correspond.requotedSize (h : Correspond c c' f t t') {ranges : List Token}
    (hr : ranges <:+: Token.scan t) :
    RequotedSize c c' (Token.rangeText t ranges) (Token.rangeText t' (ranges.map f)) := by
  unfold Token.rangeText
  rw [List.isEmpty_map]
  split_ifs
  · exact Or.inl rfl
  · rcases h.source ranges hr with hsame | ⟨x, y, hx, hy⟩
    · exact Or.inl (by rw [hsame])
    · refine Or.inr ⟨squeeze x, squeeze y, ?_, ?_⟩
      · rw [hx, squeeze, List.filter_append, List.filter_append]
        rfl
      · rw [hy, squeeze, List.filter_append, List.filter_append]
        rfl

namespace PinDecl

theorem Requoted.isQualified {d d' : PinDecl} (h : d.Requoted c c' d') :
    d'.isQualified = d.isQualified := by
  unfold PinDecl.isQualified
  rw [h.direction, h.dataType, h.size.isSome]

theorem Requoted.pin {d d' : PinDecl} (h : d.Requoted c c' d') {cs cs' : List String}
    (hcs : K → cs' = cs) : (d.pin cs).Requoted K c c' (d'.pin cs') :=
  ⟨h.name, h.direction, h.dataType, h.size, hcs⟩

/-- **Corresponding runs of tokens are declarations alike.** -/
theorem rel_ofTokens? (h : Correspond c c' f t t') {ts : List Token} (hts : ts <:+: Token.scan t) :
    Option.Rel (Requoted c c') (ofTokens? t ts) (ofTokens? t' (ts.map f)) := by
  rw [ofTokens?_eq, ofTokens?_eq, head?_map h.skeleton]
  cases hh : head? ts with
  | none => exact .none
  | some head => exact .some ⟨rfl, rfl, rfl, h.requotedSize ((infix_of_head? hh).trans hts)⟩

/-- **The pins stated differ at most in the content of a literal.** -/
theorem forall₂_pinsOf (h : Correspond c c' f t t') {cs cs' : List String} (hcs : K → cs' = cs) :
    ∀ {items : List PinItem}, (∀ run, .declaration run ∈ items → run <:+: Token.scan t) →
      ∀ {pattern pattern' : Option Pin}, Option.Rel (Pin.Requoted K c c') pattern pattern' →
        Forall₂ (Pin.Requoted K c c') (pinsOf t cs pattern items)
          (pinsOf t' cs' pattern' (items.map (PinItem.map f)))
  | [], _, _, _, _ => .nil
  | .directive _ :: items, hitems, _, _, hpattern =>
    forall₂_pinsOf h hcs (fun run hr => hitems run (List.mem_cons_of_mem _ hr)) hpattern
  | .declaration ts :: items, hitems, pattern, pattern', hpattern => by
    have ih := @forall₂_pinsOf h cs cs' hcs items
      fun run hr => hitems run (List.mem_cons_of_mem _ hr)
    have hdecl := rel_ofTokens? h (hitems ts List.mem_cons_self)
    rw [List.map_cons, PinItem.map, pinsOf, pinsOf]
    generalize ofTokens? t ts = d at hdecl ⊢
    generalize ofTokens? t' (ts.map f) = d' at hdecl ⊢
    cases hdecl with
    | none => exact ih hpattern
    | some hd =>
      simp only [hd.isQualified]
      split_ifs
      · exact .cons (hd.pin hcs) (ih (.some (hd.pin hcs)))
      · cases hpattern with
        | none => exact ih .none
        | some hp =>
          refine .cons ⟨hd.name, hp.direction, hp.dataType, hp.size, hcs⟩ (ih (.some hp))

/-- **Corresponding statements state pins alike,** or none. -/
theorem rel_refine? (h : Correspond c c' f t t') {cs cs' : List String} (hcs : K → cs' = cs)
    {pins pins' : Roster Pin} (hpins : Forall₂ (Pin.Requoted K c c') pins.records pins'.records) :
    Option.Rel (fun r r' => Forall₂ (Pin.Requoted K c c') r.records r'.records)
      (refine? pins t cs) (refine? pins' t' cs') := by
  unfold refine?
  simp only
  rw [h.scan, PinItem.ofTokens_map h.skeleton, beginsWithDirection_map h.skeleton]
  split_ifs
  · refine .some (Roster.forall₂_foldl_replace Pin.relatesNames_requoted ?_ hpins)
    exact forall₂_pinsOf h hcs (fun run hr => PinItem.infix_of_declaration hr) .none
  · exact .none

end PinDecl

end DesignAtlas
