import DesignAtlas.Design
import DesignAtlas.Proofs.Roster.Distinct
import Mathlib.Data.List.Chain

/-! # Descents through a design

The instances of a design relate its modules: one calls another when both are known and it has an
instance of it (`Calls`). A descent starts at a module and takes one instance after the other, each
given by its position in the module reached so far (`Descent`). The names met on descents are the
chains of `Calls` (`exists_descent_iff`). What is reachable at all is reachable by a chain without
repetition (`exists_nodup_chain`), and a reachable cycle shows in a chain that repeats no name but
the last (`exists_closing_chain`). -/

namespace DesignAtlas.Design

/-- Module `a` has an instance of module `b`, and both are known. -/
def Calls (d : Design) (a b : String) : Prop :=
  ∃ m, d.find? a = some m ∧ (∃ i ∈ m.instances, i.callee = b) ∧ b ∈ d.names

/-- A descent from a module: the positions of the instances taken, and the names of the modules met,
the first and the last included. -/
inductive Descent (d : Design) : String → List Nat → List String → Prop
  | stay (n : String) : Descent d n [] [n]
  | step {n : String} {m : ModuleInfo} {k : Nat} {i : Instance} {ks : List Nat}
      {names : List String} (hm : d.find? n = some m) (hi : m.instances[k]? = some i)
      (hc : i.callee ∈ d.names) (h : Descent d i.callee ks names) :
      Descent d n (k :: ks) (n :: names)

variable {d : Design} {a b n : String} {names : List String}

/-! ### Descents and chains -/

theorem Descent.head? {ks : List Nat} (h : Descent d n ks names) : names.head? = some n := by
  cases h <;> rfl

theorem Descent.isChain {ks : List Nat} (h : Descent d n ks names) : names.IsChain d.Calls := by
  induction h with
  | stay n => exact .singleton n
  | @step n m k i ks names hm hi hc h ih =>
    obtain ⟨l, rfl⟩ := List.head?_eq_some_iff.mp h.head?
    have hcall : d.Calls n i.callee := ⟨m, hm, ⟨i, List.mem_of_getElem? hi, rfl⟩, hc⟩
    exact .cons_cons hcall ih

theorem exists_descent_of_isChain : ∀ {l : List String} {n : String},
    (n :: l).IsChain d.Calls → ∃ ks, Descent d n ks (n :: l)
  | [], n, _ => ⟨[], .stay n⟩
  | b :: l, n, h => by
    obtain ⟨⟨m, hm, ⟨i, hi, rfl⟩, hc⟩, hl⟩ := List.isChain_cons_cons.mp h
    obtain ⟨ks, hks⟩ := exists_descent_of_isChain hl
    obtain ⟨k, hk⟩ := List.mem_iff_getElem?.mp hi
    exact ⟨k :: ks, .step hm hk hc hks⟩

/-- **The names met on descents are the chains of calls.** -/
theorem exists_descent_iff :
    (∃ ks, Descent d n ks names) ↔ names.head? = some n ∧ names.IsChain d.Calls := by
  constructor
  · rintro ⟨ks, h⟩
    exact ⟨h.head?, h.isChain⟩
  · rintro ⟨hh, hc⟩
    obtain ⟨l, rfl⟩ := List.head?_eq_some_iff.mp hh
    exact exists_descent_of_isChain hc

/-! ### Chains that repeat nothing -/

/-- What is reachable is reachable without repetition. -/
theorem exists_nodup_chain (h : Relation.ReflTransGen d.Calls a b) :
    ∃ l, (l ++ [b]).head? = some a ∧ (l ++ [b]).IsChain d.Calls ∧ (l ++ [b]).Nodup := by
  induction h with
  | refl => exact ⟨[], rfl, .singleton a, List.nodup_singleton a⟩
  | @tail b c _ hbc ih =>
    obtain ⟨l, hh, hc, hn⟩ := ih
    by_cases hm : c ∈ l ++ [b]
    · -- the chain has met `c` before and is cut there
      obtain ⟨u, v, huv⟩ := List.append_of_mem hm
      rw [huv, List.append_cons] at hh hc hn
      exact ⟨u, by simpa using hh, hc.left_of_append, hn.of_append_left⟩
    · refine ⟨l ++ [b], by simpa using hh, ?_, ?_⟩
      · rw [List.append_assoc, List.singleton_append]
        exact List.isChain_append_cons_cons.mpr ⟨hc, hbc, .singleton c⟩
      · rw [← List.concat_eq_append]
        exact hn.concat hm

/-- A list with a repetition has a first one. -/
theorem exists_first_repeat {l : List String} (h : ¬ l.Nodup) :
    ∃ u x v, l = u ++ x :: v ∧ u.Nodup ∧ x ∈ u := by
  induction l using List.reverseRecOn with
  | nil => exact absurd List.nodup_nil h
  | append_singleton l x ih =>
    by_cases hl : l.Nodup
    · refine ⟨l, x, [], rfl, hl, ?_⟩
      by_contra hx
      exact h (by rw [← List.concat_eq_append]; exact hl.concat hx)
    · obtain ⟨u, y, v, rfl, hu, hy⟩ := ih hl
      exact ⟨u, y, v ++ [x], by simp, hu, hy⟩

theorem reflTransGen_of_mem {x : String} (hh : names.head? = some a)
    (hc : names.IsChain d.Calls) (hx : x ∈ names) : Relation.ReflTransGen d.Calls a x := by
  obtain ⟨l, rfl⟩ := List.head?_eq_some_iff.mp hh
  exact hc.induction (Relation.ReflTransGen d.Calls a) _ (fun _ _ hxy hx => hx.tail hxy)
    (fun _ => .refl) x hx

/-- **A cycle is reachable** exactly when some chain from the start repeats its last name and no
other. -/
theorem exists_closing_chain :
    (∃ n, Relation.ReflTransGen d.Calls a n ∧ Relation.TransGen d.Calls n n) ↔
      ∃ l x, (l ++ [x]).head? = some a ∧ (l ++ [x]).IsChain d.Calls ∧ l.Nodup ∧ x ∈ l := by
  constructor
  · rintro ⟨n, han, hnn⟩
    obtain ⟨b, hnb, hbn⟩ := Relation.TransGen.head'_iff.mp hnn
    -- a chain down to `n` and once around the cycle
    obtain ⟨u, hu, huc, -⟩ := exists_nodup_chain han
    obtain ⟨v, hv, hvc, -⟩ := exists_nodup_chain hbn
    have hc : (u ++ n :: (v ++ [n])).IsChain d.Calls := by
      refine List.isChain_split.mpr ⟨huc, ?_⟩
      obtain ⟨w, hw⟩ := List.head?_eq_some_iff.mp hv
      rw [hw] at hvc ⊢
      exact .cons_cons hnb hvc
    have hrep : ¬ (u ++ n :: (v ++ [n])).Nodup := by
      intro hn
      exact (List.nodup_cons.mp hn.of_append_right).1 (by simp)
    obtain ⟨l, x, r, hl, hln, hxl⟩ := exists_first_repeat hrep
    have hhead : (u ++ n :: (v ++ [n])).head? = some a := by
      rw [List.append_cons, List.head?_append, hu]
      rfl
    rw [hl, List.append_cons] at hc hhead
    exact ⟨l, x, by simpa using hhead, hc.left_of_append, hln, hxl⟩
  · rintro ⟨l, x, hh, hc, -, hx⟩
    obtain ⟨u, v, rfl⟩ := List.append_of_mem hx
    rw [List.append_assoc, List.cons_append] at hh hc
    have hloop : Relation.TransGen d.Calls x x := by
      have hxv : (x :: (v ++ [x])).IsChain d.Calls := (List.isChain_split.mp hc).2
      obtain ⟨y, w, hyw⟩ := List.exists_cons_of_ne_nil (l := v ++ [x]) (by simp)
      rw [hyw] at hxv
      have hxy := List.isChain_cons_cons.mp hxv
      have hmem : x ∈ y :: w := by rw [← hyw]; simp
      exact .head' hxy.1 (reflTransGen_of_mem rfl hxy.2 hmem)
    exact ⟨x, reflTransGen_of_mem hh hc (by simp), hloop⟩

/-! ### The modules met -/

theorem mem_names_of_reflTransGen {x : String} (ha : a ∈ d.names)
    (h : Relation.ReflTransGen d.Calls a x) : x ∈ d.names := by
  cases h with
  | refl => exact ha
  | tail _ hc => exact hc.choose_spec.2.2

theorem mem_names_of_isChain (ha : a ∈ d.names) (hh : names.head? = some a)
    (hc : names.IsChain d.Calls) {x : String} (hx : x ∈ names) : x ∈ d.names :=
  mem_names_of_reflTransGen ha (reflTransGen_of_mem hh hc hx)

end DesignAtlas.Design
