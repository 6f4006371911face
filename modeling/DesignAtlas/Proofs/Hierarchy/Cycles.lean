import DesignAtlas.Command
import DesignAtlas.Proofs.Hierarchy.Descents

/-! # The reports of cycles

Expansion reports while it goes down and builds the tree on its way back. Still the reports are
those of the nodes that close a cycle, one for each, in pre-order (`reports_eq`). There are some
exactly when a cycle of calls can be reached (`reports_ne_nil_iff`): a chain down to such a cycle
and around it repeats a name, and up to its first repetition it is a path of the tree. -/

namespace DesignAtlas.Hierarchy

open Relation

variable {d : Design} {root : String}

/-- The report of a node that closes a cycle, by the names on its path: it is about the module above
the node. -/
def reportOf (names : List String) : Diagnostic :=
  ⟨.circularInstantiation, names.dropLast.getLast?.getD "", " -> ".intercalate names⟩

theorem cycleReport_eq {path : List String} {owner : String} (h : path.getLast? = some owner)
    (callee : String) : cycleReport path owner callee = reportOf (path ++ [callee]) := by
  rw [cycleReport, reportOf, List.dropLast_concat, h, Option.getD_some]

/-- The reports of the nodes that close a cycle, for located nodes behind a path. -/
def reportsIn (path : List String) (es : List (List String × Hierarchy)) : List Diagnostic :=
  (es.filter fun e => e.2.cycle).map fun e => reportOf (path ++ e.1)

theorem reportsIn_append (path : List String) (es es' : List (List String × Hierarchy)) :
    reportsIn path (es ++ es') = reportsIn path es ++ reportsIn path es' := by
  simp [reportsIn]

/-- An open node has no report of its own, and its name is on the path of those below it. -/
theorem reportsIn_open (path : List String) (n : String) (ts : List Hierarchy) :
    reportsIn path (node n false ts).located = reportsIn (path ++ [n]) (locatedAll ts) := by
  have hself : (node n false ts).cycle = false := rfl
  rw [reportsIn, located, List.filter_cons, hself, if_neg Bool.false_ne_true, List.filter_map,
    List.map_map]
  refine List.map_congr_left fun e _ => ?_
  rw [Function.comp, List.append_cons]

theorem reports_expandAll (d : Design) (path : List String) (owner : String) (is : List Instance)
    (h : path.getLast? = some owner) :
    (expandAll d path owner is).2 = reportsIn path (locatedAll (expandAll d path owner is).1) := by
  induction path, owner, is using expandAll_induct d with
  | nil path owner => rw [expandAll_nil]; rfl
  | unknown path owner i is hnone ih => rw [expandAll_unknown hnone]; exact ih h
  | cycle path owner i is m hsome hi ih =>
    rw [expandAll_cycle hsome hi, locatedAll, reportsIn_append, ← ih h, cycleReport_eq h]
    rfl
  | opened path owner i is m hsome hi ihLater ihBelow =>
    rw [expandAll_open hsome hi, locatedAll, reportsIn_append, reportsIn_open, ← ihLater h,
      ← ihBelow (List.getLast?_concat ..)]

/-- **The reports are those of the nodes that close a cycle,** in pre-order. -/
theorem reports_eq (d : Design) (root : String) :
    (expand d root).2 = reportsIn [] (expand d root).1.located := by
  rw [expand_eq]
  rcases d.find? root with _ | m
  · rfl
  · rw [reportsIn_open, List.nil_append]
    exact reports_expandAll d [root] root m.instances rfl

/-! ### Reachable cycles -/

theorem reports_ne_nil_iff_cycle :
    (expand d root).2 ≠ [] ↔ ∃ e ∈ (expand d root).1.located, e.2.name ∈ e.1.dropLast := by
  rw [reports_eq, reportsIn, ne_eq, List.map_eq_nil_iff, List.filter_eq_nil_iff]
  push Not
  refine exists_congr fun e => and_congr_right fun he => ?_
  simpa using (marked_expand d root e he).cycle_iff

theorem exists_closing_path :
    (∃ e ∈ (expand d root).1.located, e.2.name ∈ e.1.dropLast) ↔
      ∃ l x, l ++ [x] ∈ (expand d root).1.paths ∧ x ∈ l := by
  constructor
  · rintro ⟨e, he, hn⟩
    obtain ⟨l, hl⟩ := List.getLast?_eq_some_iff.mp (getLast?_of_mem_located he)
    rw [hl, List.dropLast_concat] at hn
    exact ⟨l, e.2.name, hl ▸ List.mem_map_of_mem he, hn⟩
  · rintro ⟨l, x, hp, hx⟩
    obtain ⟨e, he, hl⟩ := List.mem_map.mp hp
    have hlast := getLast?_of_mem_located he
    rw [hl, List.getLast?_concat] at hlast
    obtain rfl := Option.some.inj hlast
    exact ⟨e, he, by rwa [hl, List.dropLast_concat]⟩

/-- **Something is reported exactly when a cycle is reachable.** -/
theorem reports_ne_nil_iff (d : Design) (root : String) :
    (expand d root).2 ≠ [] ↔ ∃ n, ReflTransGen d.Calls root n ∧ TransGen d.Calls n n := by
  by_cases h : root ∈ d.names
  · rw [reports_ne_nil_iff_cycle, exists_closing_path, Design.exists_closing_chain]
    refine exists_congr fun l => exists_congr fun x => ?_
    rw [mem_paths_expand h, List.dropLast_concat, and_assoc, and_assoc]
  · -- an unknown module calls nothing
    have hnone : d.find? root = none := Roster.find?_eq_none_iff.mpr h
    have hcall : ∀ n, ¬ d.Calls root n := by
      rintro n ⟨m, hm, -⟩
      rw [hnone] at hm
      cases hm
    refine iff_of_false (by rw [expand_eq, hnone]; simp) ?_
    rintro ⟨n, hr, hc⟩
    rcases hr.cases_head with rfl | ⟨b, hb, -⟩
    · obtain ⟨b, hb, -⟩ := TransGen.head'_iff.mp hc
      exact hcall b hb
    · exact hcall b hb

/-! ### What a report says -/

/-- A report tells of a node of a tree: it is about the module of the node above and shows the names
on the path. -/
structure Tells (t : Hierarchy) (e : List String × Hierarchy) (r : Diagnostic) : Prop where
  kind : r.kind = .circularInstantiation
  module : ∃ p ∈ t.located, p.1 = e.1.dropLast ∧ e.2 ∈ p.2.children ∧ r.module = p.2.name
  text : r.text = " -> ".intercalate e.1

theorem tells_reportOf {e : List String × Hierarchy} (he : e ∈ (expand d root).1.located)
    (hc : e.2.cycle = true) : Tells (expand d root).1 e (reportOf e.1) := by
  have hmem : e.2.name ∈ e.1.dropLast := by simpa using (marked_expand d root e he).cycle_iff.mp hc
  obtain ⟨p, hp, hpath, hchild⟩ := exists_parent he (List.ne_nil_of_mem hmem)
  refine ⟨rfl, ⟨p, hp, hpath, hchild, ?_⟩, rfl⟩
  rw [reportOf, ← hpath, getLast?_of_mem_located hp, Option.getD_some]

/-- **The reports of cycles are exact.** They are put behind the diagnostics from before, which
change nothing else. There is one report for each node that closes a cycle, in pre-order, about the
module of the node above and with the names on its path; there are some exactly when a cycle of
calls is reachable from the root. -/
theorem expand_reports (d : Design) (root : String) :
    (∀ before, expandOnto d root before = ((expand d root).1, before ++ (expand d root).2)) ∧
    List.Forall₂ (Tells (expand d root).1)
      ((expand d root).1.located.filter fun e => e.2.cycle) (expand d root).2 ∧
    ((expand d root).2 ≠ [] ↔ ∃ n, ReflTransGen d.Calls root n ∧ TransGen d.Calls n n) := by
  refine ⟨expandOnto_eq d root, ?_, reports_ne_nil_iff d root⟩
  rw [reports_eq d root, reportsIn, List.forall₂_map_right_iff, List.forall₂_same]
  intro e he
  rw [List.mem_filter] at he
  exact tells_reportOf he.1 he.2

/-- Two modules that use each other, behind an earlier diagnostic. -/
theorem expand_reports_ring :
    let d : Design := ⟨[⟨"a", "r.v", .empty, .empty, "", [⟨"b", none, "", []⟩]⟩,
      ⟨"b", "r.v", .empty, .empty, "", [⟨"a", none, "", []⟩]⟩]⟩
    let earlier : Diagnostic := ⟨.unbalancedEndif, "a", "`endif"⟩
    (∃ n, ReflTransGen d.Calls "a" n ∧ TransGen d.Calls n n) ∧
      (expandOnto d "a" [earlier]).2 =
        [earlier, ⟨.circularInstantiation, "b", "a -> b -> a"⟩] := by
  intro d earlier
  have ha : d.find? "a" = some ⟨"a", "r.v", .empty, .empty, "", [⟨"b", none, "", []⟩]⟩ := rfl
  have hb : d.find? "b" = some ⟨"b", "r.v", .empty, .empty, "", [⟨"a", none, "", []⟩]⟩ := rfl
  have hr : (expand d "a").2 = [⟨.circularInstantiation, "b", "a -> b -> a"⟩] := by
    rw [expand_of_find? ha, expandAll_open hb (by simp), expandAll_cycle ha (by simp),
      expandAll_nil, expandAll_nil]
    rfl
  obtain ⟨hbehind, -, hc⟩ := expand_reports d "a"
  exact ⟨hc.mp (by rw [hr]; simp), by rw [hbehind, hr]; rfl⟩

end DesignAtlas.Hierarchy

namespace DesignAtlas.Command

/-- The diagnostics of a design that has been loaded and the reports of its cycles are counted
together. -/
theorem hierarchyOf_of_mem {l : Loaded} {root : String} (h : root ∈ l.design.names)
    (c : Subcommand) : hierarchyOf c l root = .ok ((Hierarchy.expand l.design root).1,
      summaryLine c (l.diagnostics ++ (Hierarchy.expand l.design root).2)) := by
  have hc : Roster.contains l.design root = true := Roster.contains_iff.mpr h
  rw [hierarchyOf, Design.resolveTop, if_pos hc]
  simp only [Hierarchy.expandOnto_eq]

end DesignAtlas.Command
