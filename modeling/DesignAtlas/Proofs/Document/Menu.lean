import DesignAtlas.Document
import DesignAtlas.Proofs.Hierarchy.Descents

/-! # The menu names what is reachable

Expansion follows no path beyond a repeated name, and still it comes to every module that calls lead
to, because these are reached without repetition too (`mem_names_expand`). The menu has an entry for
each node of the hierarchy, so it names these modules and no others, each with the page of its
source file (`menu_reachable`). -/

namespace DesignAtlas

open Relation

variable {d : Design} {root n : String}

/-- **The modules in the hierarchy are those that calls lead to.** -/
theorem Hierarchy.mem_names_expand (h : root ∈ d.names) :
    n ∈ (expand d root).1.walk.map (fun e => e.2.name) ↔ ReflTransGen d.Calls root n := by
  rw [mem_walk_names]
  constructor
  · rintro ⟨p, hp, hl⟩
    obtain ⟨⟨hh, hc⟩, -⟩ := (mem_paths_expand h).mp hp
    exact Design.reflTransGen_of_mem hh hc (List.mem_of_getLast? hl)
  · intro hr
    obtain ⟨l, hh, hc, hn⟩ := Design.exists_nodup_chain hr
    have hd : (l ++ [n]).dropLast.Nodup := hn.sublist (List.dropLast_sublist _)
    exact ⟨l ++ [n], (mem_paths_expand h).mpr ⟨⟨hh, hc⟩, hd⟩, List.getLast?_concat ..⟩

namespace Document

/-- The page of an entry is that of its module, when the module is known. -/
theorem page_entryOf {m : ModuleInfo} {t : Hierarchy} (hm : d.find? t.name = some m) (depth : Nat) :
    (entryOf d depth t).page = pageName m.sourceFile := by
  rw [entryOf, hm]
  rfl

/-- **The menu has an entry for each reachable module and for no other.** The names in the hierarchy
below a known module are those of the known modules that calls lead to from it; a menu entry of this
name and page is there exactly when the module is reachable and the page is that of its source
file. -/
theorem menu_reachable (d : Design) {root : String} (h : root ∈ d.names) :
    let t := (Hierarchy.expand d root).1
    (∀ n, n ∈ t.walk.map (fun e => e.2.name) ↔ n ∈ d.names ∧ ReflTransGen d.Calls root n) ∧
    ∀ n page, (∃ e ∈ (ofDesign d t).menu, e.name = n ∧ e.page = page) ↔
      ReflTransGen d.Calls root n ∧ ∃ m, d.find? n = some m ∧ page = pageName m.sourceFile := by
  intro t
  have hknown : ∀ n, ReflTransGen d.Calls root n → n ∈ d.names := fun n hr =>
    Design.mem_names_of_reflTransGen h hr
  refine ⟨fun n => ?_, fun n page => ?_⟩
  · rw [Hierarchy.mem_names_expand h]
    exact ⟨fun hr => ⟨hknown n hr, hr⟩, fun hr => hr.2⟩
  · rw [← Hierarchy.mem_names_expand h, ofDesign]
    constructor
    · rintro ⟨_, he, rfl, rfl⟩
      obtain ⟨e, het, rfl⟩ := List.mem_map.mp he
      have hname : e.2.name ∈ t.walk.map (fun e => e.2.name) := List.mem_map_of_mem het
      obtain ⟨m, hm⟩ := Roster.mem_names_iff.mp
        (hknown _ ((Hierarchy.mem_names_expand h).mp hname))
      exact ⟨hname, m, hm, page_entryOf hm _⟩
    · rintro ⟨hn, m, hm, rfl⟩
      obtain ⟨e, het, rfl⟩ := List.mem_map.mp hn
      exact ⟨entryOf d e.1 e.2, List.mem_map_of_mem het, rfl, page_entryOf hm _⟩

/-- A module is reached through another one and calls itself. -/
theorem menu_reachable_loop :
    let d : Design := ⟨[⟨"a", "top.v", .empty, .empty, "", [⟨"b", none, "", []⟩]⟩,
      ⟨"b", "rtl/b.v", .empty, .empty, "", [⟨"b", none, "", []⟩]⟩]⟩
    "a" ∈ d.names ∧
    ∃ e ∈ (ofDesign d (Hierarchy.expand d "a").1).menu, e.name = "b" ∧ e.page = "b.v.html" := by
  intro d
  have h : "a" ∈ d.names := by decide
  have hab : d.Calls "a" "b" :=
    ⟨_, rfl, ⟨⟨"b", none, "", []⟩, by simp, rfl⟩, by decide⟩
  have hm : d.find? "b" = some ⟨"b", "rtl/b.v", .empty, .empty, "", [⟨"b", none, "", []⟩]⟩ := rfl
  exact ⟨h, ((menu_reachable d h).2 "b" "b.v.html").mpr ⟨.single hab, _, hm, by decide +kernel⟩⟩

end Document

end DesignAtlas
