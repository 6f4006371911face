import DesignAtlas.Roster
import Mathlib.Data.List.Induction
import Mathlib.Data.List.Nodup
import Mathlib.Data.List.Perm.Basic

/-! # Rosters of records with distinct names

Records that come with names of their own are kept as they come: putting them appends them
(`putAll_eq_append`). A roster in which every name stands once acts as a map from names to records,
and the map does not depend on the order of the records (`find?_eq_some_iff`, `find?_of_perm`); the
map and the order of the names are all of it (`eq_of_find?`). So records that replace others in a
roster that has just their names leave what they would make by themselves
(`foldl_replace_eq_putAll`). -/

namespace DesignAtlas.Roster

variable {α : Type} [Named α] {r r' : Roster α}

/-- Of a list without its repetitions, one more element is either there already or comes last. -/
theorem eraseDups_concat (l : List String) (a : String) :
    (l ++ [a]).eraseDups = if a ∈ l then l.eraseDups else l.eraseDups ++ [a] := by
  rw [List.eraseDups_append, List.removeAll, List.filter_singleton]
  split_ifs with h
  · simp [h]
  · simp [h, List.eraseDups_cons]

/-! ### Putting new names -/

theorem contains_iff {n : String} : r.contains n = true ↔ n ∈ r.names := by
  unfold contains; rw [List.contains_iff_mem]

theorem put_of_notMem {x : α} (h : Named.name x ∉ r.names) : r.put x = ⟨r.records ++ [x]⟩ := by
  unfold put; rw [if_neg (by rw [contains_iff]; exact h)]

theorem names_append (xs : List α) (x : α) :
    (Roster.mk (xs ++ [x])).names = (Roster.mk xs).names ++ [Named.name x] := by
  simp [names]

/-- **Records with new and distinct names are appended.** -/
theorem putAll_eq_append : ∀ (xs : List α) (r : Roster α),
    (r.names ++ xs.map Named.name).Nodup → r.putAll xs = ⟨r.records ++ xs⟩
  | [], r, _ => by simp [putAll]
  | x :: xs, r, h => by
    rw [List.map_cons] at h
    have hx : Named.name x ∉ r.names := fun hm =>
      (List.nodup_cons.mp (List.nodup_middle.mp h)).1 (List.mem_append_left _ hm)
    rw [List.append_cons] at h
    have ih := putAll_eq_append xs ⟨r.records ++ [x]⟩ (by rw [names_append]; exact h)
    unfold putAll at ih ⊢
    rw [List.foldl_cons, put_of_notMem hx, ih]
    simp

/-! ### Putting any record -/

theorem nodup_names_put (h : r.names.Nodup) (x : α) : (r.put x).names.Nodup := by
  rw [names_put]
  split_ifs with hx
  · exact h
  · rw [contains_iff] at hx
    rw [← List.concat_eq_append]
    exact h.concat hx

theorem nodup_names_putAll : ∀ {r : Roster α}, r.names.Nodup →
    ∀ xs : List α, (r.putAll xs).names.Nodup
  | _, h, [] => h
  | _, h, x :: xs => nodup_names_putAll (nodup_names_put h x) xs

/-- The names stand in the order in which they first came, also after one more. -/
theorem names_put_of_eraseDups {l : List String} (h : r.names = l.eraseDups) (x : α) :
    (r.put x).names = (l ++ [Named.name x]).eraseDups := by
  have hmem : r.contains (Named.name x) = true ↔ Named.name x ∈ l := by
    rw [contains_iff, h, List.mem_eraseDups]
  rw [names_put, eraseDups_concat, ← h]
  simp only [hmem]

/-- The names stand in the order in which they first came. -/
theorem names_putAll_empty (xs : List α) :
    (empty.putAll xs).names = (xs.map Named.name).eraseDups := by
  induction xs using List.reverseRecOn with
  | nil => rfl
  | append_singleton xs x ih =>
    rw [putAll, List.foldl_append, ← putAll, List.map_append]
    exact names_put_of_eraseDups ih x

theorem putAll_append (r : Roster α) (xs ys : List α) :
    r.putAll (xs ++ ys) = (r.putAll xs).putAll ys := List.foldl_append

/-- A roster grows by a record whose name is new. -/
theorem size_put (r : Roster α) (x : α) :
    (r.put x).size = if r.contains (Named.name x) then r.size else r.size + 1 := by
  have hsize : ∀ r : Roster α, r.names.length = r.size := fun r => List.length_map _
  rw [← hsize, names_put, ← hsize]
  split_ifs
  · rfl
  · rw [List.length_append, List.length_singleton]

/-- After replacing a record, the records are the new one and some of those from before. -/
theorem mem_replace {x y : α} (h : y ∈ (r.replace x).records) : y = x ∨ y ∈ r.records := by
  obtain ⟨z, hz, rfl⟩ := List.mem_map.mp h
  split_ifs
  · exact .inl rfl
  · exact .inr hz

/-- After putting a record, the records are that one and some of those from before. -/
theorem mem_put {x y : α} (h : y ∈ (r.put x).records) : y = x ∨ y ∈ r.records := by
  unfold put at h
  split_ifs at h
  · exact mem_replace h
  · rcases List.mem_append.mp h with h | h
    · exact .inr h
    · exact .inl (List.mem_singleton.mp h)

/-- What holds of the records of a roster and of more records holds after these are put. -/
theorem forall_mem_putAll {P : α → Prop} : ∀ {xs : List α} {r : Roster α}, (∀ x ∈ xs, P x) →
    (∀ y ∈ r.records, P y) → ∀ y ∈ (r.putAll xs).records, P y
  | [], _, _, hr => hr
  | x :: xs, r, hxs, hr => by
    refine @forall_mem_putAll P xs (r.put x) (fun y hy => hxs y (List.mem_cons_of_mem x hy)) ?_
    intro y hy
    rcases mem_put hy with rfl | hy
    · exact hxs y List.mem_cons_self
    · exact hr y hy

/-! ### A roster as a map -/

/-- **A record is found under its name and under no other.** -/
theorem find?_eq_some_iff (hn : r.names.Nodup) {n : String} {x : α} :
    r.find? n = some x ↔ x ∈ r.records ∧ Named.name x = n := by
  unfold find?
  constructor
  · intro h
    exact ⟨List.mem_of_find?_eq_some h, by simpa using List.find?_some h⟩
  · rintro ⟨hx, rfl⟩
    obtain ⟨y, hy⟩ : ∃ y, r.records.find? (fun y => Named.name y == Named.name x) = some y := by
      rw [← Option.isSome_iff_exists, List.find?_isSome]
      exact ⟨x, hx, by simp⟩
    have hyn : Named.name y = Named.name x := by simpa using List.find?_some hy
    rw [hy, List.inj_on_of_nodup_map hn (List.mem_of_find?_eq_some hy) hx hyn]

theorem find?_eq_none_iff {n : String} : r.find? n = none ↔ n ∉ r.names := by
  unfold find? names
  rw [List.find?_eq_none, List.mem_map]
  constructor
  · rintro h ⟨x, hx, rfl⟩; exact h x hx (by simp)
  · intro h x hx hn; exact h ⟨x, hx, by simpa using hn⟩

theorem mem_names_iff {n : String} : n ∈ r.names ↔ ∃ x, r.find? n = some x := by
  rw [← Option.ne_none_iff_exists', ne_eq, find?_eq_none_iff, not_not]

theorem contains_eq_isSome (n : String) : r.contains n = (r.find? n).isSome := by
  rw [Bool.eq_iff_iff, contains_iff, Option.isSome_iff_ne_none, ne_eq, find?_eq_none_iff, not_not]

/-- **The order of the records does not matter for look-up.** -/
theorem find?_of_perm (hp : r.records.Perm r'.records) (hn : r.names.Nodup) (n : String) :
    r.find? n = r'.find? n := by
  have hn' : r'.names.Nodup := (hp.map Named.name).nodup_iff.mp hn
  rcases h : r.find? n with _ | x
  · rw [find?_eq_none_iff] at h
    rw [eq_comm, find?_eq_none_iff]
    intro hm
    exact h ((hp.map Named.name).mem_iff.mpr hm)
  · rw [find?_eq_some_iff hn] at h
    rw [eq_comm, find?_eq_some_iff hn']
    exact ⟨hp.mem_iff.mp h.1, h.2⟩

/-- **The names in order and look-up determine a roster.** -/
theorem eq_of_find? (hn : r.names.Nodup) (hnames : r.names = r'.names)
    (hfind : ∀ n ∈ r.names, r.find? n = r'.find? n) : r = r' := by
  have hlisted : ∀ {s : Roster α}, s.names.Nodup → s.records.map some = s.names.map s.find? := by
    intro s hs
    unfold names
    rw [List.map_map]
    refine List.map_congr_left fun x hx => ?_
    exact ((find?_eq_some_iff hs).mpr ⟨hx, rfl⟩).symm
  have hrecords : r.records.map some = r'.records.map some := by
    rw [hlisted hn, hlisted (hnames ▸ hn), ← hnames]
    exact List.map_congr_left hfind
  cases r
  cases r'
  exact congrArg mk (List.map_injective_iff.mpr (fun _ _ h => Option.some.inj h) hrecords)

/-! ### The record put last -/

/-- **Under a name stands what was put last under it.** -/
theorem find?_putAll (n : String) : ∀ (xs : List α) (r : Roster α),
    (r.putAll xs).find? n = (xs.reverse.find? fun x => Named.name x == n).or (r.find? n)
  | [], r => by simp [putAll]
  | x :: xs, r => by
    have ih := find?_putAll n xs (r.put x)
    have hput : (r.put x).find? n = if Named.name x = n then some x else r.find? n := by
      split_ifs with hx
      · rw [← hx]
        exact find?_put_self r x
      · exact find?_put_of_ne r hx
    unfold putAll at ih ⊢
    rw [List.foldl_cons, ih, hput, List.reverse_cons, List.find?_append, Option.or_assoc]
    by_cases hx : Named.name x = n <;> simp [hx]

/-- A record is found under its name if none put later has the name. -/
theorem find?_putAll_of_last (r : Roster α) (xs : List α) {x : α} {ys : List α}
    (h : ∀ y ∈ ys, Named.name y ≠ Named.name x) :
    (r.putAll (xs ++ x :: ys)).find? (Named.name x) = some x := by
  have hnone : (ys.reverse.find? fun y => Named.name y == Named.name x) = none :=
    List.find?_eq_none.mpr fun y hy => by simpa using h y (List.mem_reverse.mp hy)
  have hput : (r.putAll xs).putAll (x :: ys) = ((r.putAll xs).put x).putAll ys := rfl
  rw [putAll_append, hput, find?_putAll, hnone, Option.none_or, find?_put_self]

theorem mem_names_putAll {xs : List α} {n : String} :
    n ∈ (r.putAll xs).names ↔ n ∈ xs.map Named.name ∨ n ∈ r.names := by
  have hlast : (∃ x, xs.reverse.find? (fun x => Named.name x == n) = some x) ↔
      n ∈ xs.map Named.name := by
    rw [← Option.isSome_iff_exists, List.find?_isSome]
    simp
  rw [mem_names_iff, mem_names_iff, ← hlast]
  simp only [find?_putAll, Option.or_eq_some_iff]
  cases xs.reverse.find? fun x => Named.name x == n <;> simp

theorem names_foldl_replace : ∀ (xs : List α) (r : Roster α),
    (xs.foldl replace r).names = r.names
  | [], _ => rfl
  | x :: xs, r => by rw [List.foldl_cons, names_foldl_replace, names_replace]

/-- A record takes the place of the one with its name. -/
theorem find?_replace (r : Roster α) (x : α) (n : String) :
    (r.replace x).find? n = (r.find? n).map fun y => if Named.name x = n then x else y := by
  by_cases hx : Named.name x = n
  · cases hy : r.find? n with
    | none =>
      rw [find?_eq_none_iff] at hy
      rw [Option.map_none, find?_eq_none_iff, names_replace]
      exact hy
    | some y =>
      -- the name is there, so replacing is putting
      have hmem : n ∈ r.names := mem_names_iff.mpr ⟨y, hy⟩
      have hput : r.put x = r.replace x := by
        unfold put
        rw [if_pos (contains_iff.mpr (hx ▸ hmem))]
      rw [Option.map_some, if_pos hx, ← hput, ← hx, find?_put_self]
  · rw [find?_replace_of_ne r hx]
    simp [hx]

/-- **Under a name stands what replaced its record last,** if anything did. -/
theorem find?_foldl_replace (n : String) : ∀ (xs : List α) (r : Roster α),
    (xs.foldl replace r).find? n =
      (r.find? n).map fun y => (xs.reverse.find? fun x => Named.name x == n).getD y
  | [], r => by simp
  | x :: xs, r => by
    rw [List.foldl_cons, find?_foldl_replace, find?_replace, Option.map_map, List.reverse_cons,
      List.find?_append]
    refine Option.map_congr fun y _ => ?_
    rw [Function.comp]
    cases xs.reverse.find? fun x => Named.name x == n with
    | some z => rfl
    | none => by_cases hx : Named.name x = n <;> simp [hx]

/-- Replacing is putting for names that are there. -/
theorem foldl_replace_of_mem : ∀ (xs : List α) (r : Roster α),
    (∀ x ∈ xs, Named.name x ∈ r.names) → xs.foldl replace r = r.putAll xs
  | [], _, _ => rfl
  | x :: xs, r, h => by
    have hput : r.put x = r.replace x := by
      unfold put
      rw [if_pos (contains_iff.mpr (h x (by simp)))]
    have ih := foldl_replace_of_mem xs (r.replace x) fun y hy => by
      rw [names_replace]
      exact h y (by simp [hy])
    unfold putAll at ih ⊢
    rw [List.foldl_cons, List.foldl_cons, ih, hput]

/-- **Replacing in a roster of just their names** leaves what records make by themselves. -/
theorem foldl_replace_eq_putAll {xs : List α} (h : r.names = (empty.putAll xs).names) :
    xs.foldl replace r = empty.putAll xs := by
  have hmem : ∀ {n}, n ∈ r.names ↔ n ∈ xs.map Named.name := by
    intro n
    rw [h, mem_names_putAll]
    simp
  have hnames : (xs.foldl replace r).names = (empty.putAll xs).names := by
    rw [names_foldl_replace, h]
  have hn : (empty.putAll xs).names.Nodup :=
    nodup_names_putAll (by rw [names_empty]; exact List.nodup_nil) xs
  refine eq_of_find? (hnames ▸ hn) hnames fun n hx => ?_
  -- each name of the roster stands under one of the records
  have hlast : (xs.reverse.find? fun x => Named.name x == n).isSome = true := by
    rw [names_foldl_replace, hmem, List.mem_map] at hx
    simpa using hx
  rw [foldl_replace_of_mem xs r fun x hx => hmem.mpr (List.mem_map_of_mem hx), find?_putAll,
    find?_putAll, Option.or_of_isSome hlast, Option.or_of_isSome hlast]

end DesignAtlas.Roster
