/-! # Rosters

A roster is a list of named records in which each name stands once, in the order in which the names
first came. Putting a record under a name that is already there replaces the old record at its
place. -/

namespace DesignAtlas

/-- Records that have a name. -/
class Named (α : Type) where
  name : α → String

/-- Named records, each name once, in the order of arrival. -/
structure Roster (α : Type) where
  records : List α
  deriving DecidableEq, Repr

namespace Roster

variable {α : Type} [Named α]

/-- The roster without records. -/
def empty : Roster α := ⟨[]⟩

/-- The names, in order. -/
def names (r : Roster α) : List String := r.records.map Named.name

/-- The record of a name. -/
def find? (r : Roster α) (n : String) : Option α := r.records.find? fun x => Named.name x == n

/-- Whether there is a record of that name. -/
def contains (r : Roster α) (n : String) : Bool := r.names.contains n

/-- The number of records. -/
def size (r : Roster α) : Nat := r.records.length

/-- Puts a record in the place of the one with its name. -/
def replace (r : Roster α) (x : α) : Roster α :=
  ⟨r.records.map fun y => if Named.name y = Named.name x then x else y⟩

/-- Puts a record under its name: in the place of the old one, or at the end. -/
def put (r : Roster α) (x : α) : Roster α :=
  if r.contains (Named.name x) then r.replace x else ⟨r.records ++ [x]⟩

/-- Puts records one after the other. -/
def putAll (r : Roster α) (xs : List α) : Roster α := xs.foldl put r

/-! ### Names and look-up after putting -/

@[simp] theorem names_empty : (empty : Roster α).names = [] := rfl

/-- Replacing a record moves no name. -/
theorem names_replace (r : Roster α) (x : α) : (r.replace x).names = r.names := by
  simp only [names, replace, List.map_map]
  apply List.map_congr_left
  intro y _
  simp only [Function.comp]
  split <;> simp_all

/-- Putting a record adds its name at the end, unless the name is there already. -/
theorem names_put (r : Roster α) (x : α) :
    (r.put x).names =
      if r.contains (Named.name x) then r.names else r.names ++ [Named.name x] := by
  unfold put
  split
  · exact names_replace r x
  · simp [names]

/-- A record that was put is found under its name. -/
theorem find?_put_self (r : Roster α) (x : α) : (r.put x).find? (Named.name x) = some x := by
  unfold put
  split
  · rename_i h
    obtain ⟨records⟩ := r
    simp only [contains, names, List.contains_iff_mem, List.mem_map] at h
    simp only [find?, replace]
    induction records with
    | nil => simp at h
    | cons y ys ih =>
      by_cases hy : Named.name y = Named.name x
      · simp [hy]
      · have h' : ∃ a, a ∈ ys ∧ Named.name a = Named.name x := by
          obtain ⟨a, ha, hn⟩ := h
          rcases List.mem_cons.mp ha with rfl | ha
          · exact absurd hn hy
          · exact ⟨a, ha, hn⟩
        simp [hy, ih h']
  · rename_i h
    have hn : r.records.find? (fun y => Named.name y == Named.name x) = none := by
      simp only [List.find?_eq_none, beq_iff_eq]
      intro y hy he
      exact h (by simpa [contains, names] using ⟨y, hy, he⟩)
    simp [find?, List.find?_append, hn]

theorem find?_replace_of_ne (r : Roster α) {x : α} {n : String} (h : Named.name x ≠ n) :
    (r.replace x).find? n = r.find? n := by
  obtain ⟨records⟩ := r
  simp only [find?, replace]
  induction records with
  | nil => rfl
  | cons y ys ih =>
    simp only [List.map_cons, List.find?_cons, ih]
    by_cases hy : Named.name y = Named.name x
    · simp only [hy, if_pos, beq_false_of_ne h]
    · simp only [if_neg hy]

/-- Putting a record changes no other name. -/
theorem find?_put_of_ne (r : Roster α) {x : α} {n : String} (h : Named.name x ≠ n) :
    (r.put x).find? n = r.find? n := by
  unfold put
  split
  · exact find?_replace_of_ne r h
  · simp [find?, List.find?_append, h]

end Roster

end DesignAtlas
