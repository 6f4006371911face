import DesignAtlas.Roster
import Mathlib.Data.List.Forall2
import Mathlib.Tactic.Common

/-! # Rosters with their records changed

A function that keeps names changes the records of a roster each at its place. It commutes with
looking up (`find?_map`), replacing (`map_replace`) and putting (`map_put`, `map_putAll`): these
read nothing of a record but its name. For the same reason corresponding records of the same names
are replaced in corresponding rosters (`forall₂_replace`), and the names behind records that are
put depend on names alone (`names_putAll_congr`). -/

namespace DesignAtlas.Roster

/-- The records, each changed by `f`. -/
def map {α β : Type} (f : α → β) (r : Roster α) : Roster β := ⟨r.records.map f⟩

@[simp] theorem map_empty {α β : Type} (f : α → β) : map f empty = empty := rfl

variable {α β : Type} [Named α] [Named β] {f : α → β}

/-- The function keeps the names of records. -/
def KeepsNames (f : α → β) : Prop := ∀ x, Named.name (f x) = Named.name x

theorem names_map (hf : KeepsNames f) (r : Roster α) : (r.map f).names = r.names := by
  unfold names map
  rw [List.map_map]
  exact List.map_congr_left fun x _ => hf x

theorem find?_map (hf : KeepsNames f) (r : Roster α) (n : String) :
    (r.map f).find? n = (r.find? n).map f := by
  have hcomp : (fun y => Named.name y == n) ∘ f = fun x => Named.name x == n := by
    funext x
    rw [Function.comp, hf x]
  unfold find? map
  rw [List.find?_map, hcomp]

theorem map_replace (hf : KeepsNames f) (r : Roster α) (x : α) :
    (r.replace x).map f = (r.map f).replace (f x) := by
  unfold replace map
  rw [Roster.mk.injEq, List.map_map, List.map_map]
  refine List.map_congr_left fun y _ => ?_
  simp only [Function.comp, hf x, hf y]
  split_ifs <;> rfl

theorem map_put (hf : KeepsNames f) (r : Roster α) (x : α) :
    (r.put x).map f = (r.map f).put (f x) := by
  have hc : (r.map f).contains (Named.name (f x)) = r.contains (Named.name x) := by
    unfold contains
    rw [names_map hf, hf x]
  unfold put
  rw [hc]
  split_ifs
  · exact map_replace hf r x
  · simp [map]

theorem map_putAll (hf : KeepsNames f) : ∀ (xs : List α) (r : Roster α),
    (r.putAll xs).map f = (r.map f).putAll (xs.map f)
  | [], _ => rfl
  | x :: xs, r => by
    have ih := map_putAll hf xs (r.put x)
    rw [map_put hf] at ih
    exact ih

/-! ### Rosters that correspond -/

/-- Corresponding records have the same names. -/
def RelatesNames (R : α → β → Prop) : Prop := ∀ ⦃x y⦄, R x y → Named.name y = Named.name x

theorem forall₂_replace {R : α → β → Prop} (hR : RelatesNames R) {r : Roster α} {s : Roster β}
    (h : List.Forall₂ R r.records s.records) {x : α} {y : β} (hxy : R x y) :
    List.Forall₂ R (r.replace x).records (s.replace y).records := by
  unfold replace
  rw [List.forall₂_map_left_iff, List.forall₂_map_right_iff]
  refine h.imp fun a b hab => ?_
  rw [hR hab, hR hxy]
  split_ifs
  · exact hxy
  · exact hab

theorem forall₂_foldl_replace {R : α → β → Prop} (hR : RelatesNames R) : ∀ {xs : List α}
    {ys : List β}, List.Forall₂ R xs ys → ∀ {r : Roster α} {s : Roster β},
      List.Forall₂ R r.records s.records →
        List.Forall₂ R (xs.foldl replace r).records (ys.foldl replace s).records
  | _, _, .nil, _, _, h => h
  | _, _, .cons hxy hrest, _, _, h => forall₂_foldl_replace hR hrest (forall₂_replace hR h hxy)

theorem names_putAll_congr : ∀ {xs ys : List α} {r s : Roster α}, s.names = r.names →
    ys.map Named.name = xs.map Named.name → (s.putAll ys).names = (r.putAll xs).names
  | [], ys, _, _, h, hys => by
    rw [List.map_nil, List.map_eq_nil_iff] at hys
    rw [hys]
    exact h
  | x :: xs, ys, r, s, h, hys => by
    obtain ⟨y, ys, rfl, hy, hys⟩ := List.map_eq_cons_iff.mp hys
    refine @names_putAll_congr xs ys (r.put x) (s.put y) ?_ hys
    rw [names_put, names_put, contains, contains, h, hy]

end DesignAtlas.Roster
