import DesignAtlas.Proofs.Design.FileOrder
import DesignAtlas.Proofs.Document.Flow
import Mathlib.Data.List.Induction

/-! # References between sections

The callees of a module are read off its own instances, its callers off the instances of all
modules. The two are inverse to each other (`mem_callers_iff`, `mem_callees_iff`): a section names
another one as a callee exactly when that one names it as a caller, and both flow graphs then have
the edge. The distinct names that a module instantiates are dealt out, in order, to its callees and
to its unresolved names (`refers_ofModule`). -/

namespace DesignAtlas

/-! ### The names that a module instantiates -/

theorem Roster.nodup_eraseDups (l : List String) : l.eraseDups.Nodup := by
  induction l using List.reverseRecOn with
  | nil => simp
  | append_singleton l a ih =>
    rw [eraseDups_concat]
    split_ifs with h
    · exact ih
    · rw [← List.concat_eq_append]
      exact ih.concat (by rwa [List.mem_eraseDups])

namespace ModuleInfo

/-- **The callee names** are those of the instances, without repetitions. -/
theorem calleeNames_eq (m : ModuleInfo) :
    m.calleeNames = (m.instances.map Instance.callee).eraseDups := by
  unfold calleeNames
  induction m.instances using List.reverseRecOn with
  | nil => simp
  | append_singleton is i ih =>
    rw [List.foldl_append, List.foldl_cons, List.foldl_nil, ih, List.map_append, List.map_singleton,
      Roster.eraseDups_concat]
    simp only [List.contains_iff_mem, List.mem_eraseDups]

theorem mem_calleeNames {m : ModuleInfo} {n : String} :
    n ∈ m.calleeNames ↔ ∃ i ∈ m.instances, i.callee = n := by
  rw [calleeNames_eq, List.mem_eraseDups, List.mem_map]

theorem instantiates_iff {m : ModuleInfo} {n : String} :
    m.instantiates n = true ↔ ∃ i ∈ m.instances, i.callee = n := by
  unfold instantiates
  simp only [List.any_eq_true, beq_iff_eq]

end ModuleInfo

namespace Section

variable {d : Design} {m : ModuleInfo}

/-! ### The names in the lists of a section -/

theorem map_name_links (ms : List ModuleInfo) :
    (ms.map Link.ofModule).map Link.name = ms.map ModuleInfo.name := by
  rw [List.map_map]
  rfl

theorem map_name_callers (d : Design) (m : ModuleInfo) :
    (ofModule d m).callers.map Link.name = (d.callersOf m.name).map ModuleInfo.name :=
  map_name_links _

theorem map_name_callees (hn : d.names.Nodup) (m : ModuleInfo) :
    (ofModule d m).callees.map Link.name = m.calleeNames.filter fun n => d.contains n := by
  show (m.calleeNames.filterMap _).map Link.name = _
  rw [List.map_filterMap, ← List.filterMap_eq_filter]
  congr 1
  funext n
  simp only [Option.guard, Roster.contains_eq_isSome]
  cases h : d.find? n with
  | none => rfl
  | some k =>
    have hk : k.name = n := ((Roster.find?_eq_some_iff hn).mp h).2
    simp [Link.ofModule, hk]

/-- **A section names a module as a caller** exactly when that module instantiates its own. -/
theorem mem_callers_iff (hn : d.names.Nodup) {a : ModuleInfo} (ha : a ∈ d.records) :
    (∃ l ∈ (ofModule d m).callers, l.name = a.name) ↔ ∃ i ∈ a.instances, i.callee = m.name := by
  have hmem : (∃ l ∈ (ofModule d m).callers, l.name = a.name) ↔
      a.name ∈ (d.callersOf m.name).map ModuleInfo.name := by
    rw [← map_name_callers, List.mem_map]
  rw [hmem, ← ModuleInfo.instantiates_iff, List.mem_map]
  constructor
  · rintro ⟨k, hk, hname⟩
    obtain ⟨hkd, hki⟩ := List.mem_filter.mp hk
    rwa [← List.inj_on_of_nodup_map hn hkd ha hname]
  · intro hi
    exact ⟨a, List.mem_filter.mpr ⟨ha, hi⟩, rfl⟩

/-- **A section names a known module as a callee** exactly when its own module instantiates it. -/
theorem mem_callees_iff (hn : d.names.Nodup) {b : String} (hb : b ∈ d.names) :
    (∃ l ∈ (ofModule d m).callees, l.name = b) ↔ ∃ i ∈ m.instances, i.callee = b := by
  rw [← ModuleInfo.mem_calleeNames, ← List.mem_map, map_name_callees hn, List.mem_filter,
    Roster.contains_iff]
  exact and_iff_left hb

/-- A link of a section is the link to a module of the design. -/
theorem exists_of_mem_links {l : Link}
    (h : l ∈ (ofModule d m).callers ++ (ofModule d m).callees) :
    ∃ k ∈ d.records, l = Link.ofModule k := by
  rcases List.mem_append.mp h with h | h
  · obtain ⟨k, hk, rfl⟩ := List.mem_map.mp h
    exact ⟨k, (List.mem_filter.mp hk).1, rfl⟩
  · obtain ⟨n, -, hl⟩ := List.mem_filterMap.mp h
    obtain ⟨k, hk, rfl⟩ := Option.map_eq_some_iff.mp hl
    exact ⟨k, List.mem_of_find?_eq_some hk, rfl⟩

/-! ### What a section refers to -/

/-- The section of a module is found under its name. -/
theorem section?_of_mem (hn : d.names.Nodup) (t : Hierarchy) (hm : m ∈ d.records) :
    (Document.ofDesign d t).section? m.name = some (ofModule d m) := by
  have hfind : d.find? m.name = some m := (Roster.find?_eq_some_iff hn).mpr ⟨hm, rfl⟩
  rw [Document.section?_ofDesign, hfind]
  rfl

/-- The section of a module refers to the other sections of the document as it should. -/
structure Refers (d : Design) (doc : Document) (m : ModuleInfo) (s : Section) : Prop where
  callers_once : (s.callers.map Link.name).Nodup
  callees_once : (s.callees.map Link.name).Nodup
  unresolved_once : s.unresolved.Nodup
  /-- The callees are the known modules among those instantiated, each where it first comes. -/
  callees : s.callees.map Link.name =
    (m.instances.map Instance.callee).eraseDups.filter fun n => n ∈ d.names
  /-- The unresolved names are the other ones. -/
  unresolved : s.unresolved =
    (m.instances.map Instance.callee).eraseDups.filter fun n => n ∉ d.names
  /-- A link tells the source file and the page of the section that it names. -/
  links : ∀ l ∈ s.callers ++ s.callees, ∃ u, doc.section? l.name = some u ∧
    l.sourceFile = u.sourceFile ∧ l.page = u.page

/-- **The section of a module refers as it should.** -/
theorem refers_ofModule (hn : d.names.Nodup) (t : Hierarchy) (m : ModuleInfo) :
    Refers d (Document.ofDesign d t) m (ofModule d m) := by
  have hcontains : ∀ n, d.contains n = decide (n ∈ d.names) := fun n => by
    rw [Bool.eq_iff_iff, Roster.contains_iff, decide_eq_true_iff]
  have hcallees : (ofModule d m).callees.map Link.name =
      (m.instances.map Instance.callee).eraseDups.filter fun n => n ∈ d.names := by
    simp only [map_name_callees hn, hcontains, ModuleInfo.calleeNames_eq]
  have hunresolved : (ofModule d m).unresolved =
      (m.instances.map Instance.callee).eraseDups.filter fun n => n ∉ d.names := by
    show m.calleeNames.filter _ = _
    simp only [hcontains, ModuleInfo.calleeNames_eq, decide_not]
  have hnodup : (m.instances.map Instance.callee).eraseDups.Nodup := Roster.nodup_eraseDups _
  refine ⟨?_, ?_, ?_, hcallees, hunresolved, fun l hl => ?_⟩
  · rw [map_name_callers]
    exact hn.sublist (List.filter_sublist.map _)
  · rw [hcallees]
    exact hnodup.filter _
  · rw [hunresolved]
    exact hnodup.filter _
  · obtain ⟨k, hk, rfl⟩ := exists_of_mem_links hl
    exact ⟨ofModule d k, section?_of_mem hn t hk, rfl, rfl⟩

/-- The edge between two modules stands in the flow graph of the first exactly when the first
instantiates the second. -/
theorem mem_edges_caller (hn : d.names.Nodup) {a b : ModuleInfo} (ha : a ∈ d.records)
    (hb : b ∈ d.records) : ⟨a.name, b.name⟩ ∈ (ofModule d a).flowGraph.edges ↔
      ∃ i ∈ a.instances, i.callee = b.name := by
  have hcallees := mem_callees_iff (m := a) hn (List.mem_map_of_mem hb)
  have hcallers := mem_callers_iff (m := a) hn ha
  rw [mem_edges_flowGraph]
  constructor
  · rintro (⟨hba, hl⟩ | ⟨-, hl⟩)
    · -- a module that instantiates itself
      rw [hba]
      exact hcallers.mp hl
    · exact hcallees.mp hl
  · intro hi
    exact Or.inr ⟨rfl, hcallees.mpr hi⟩

/-- So does the edge in the flow graph of the second. -/
theorem mem_edges_callee (hn : d.names.Nodup) {a b : ModuleInfo} (ha : a ∈ d.records)
    (hb : b ∈ d.records) : ⟨a.name, b.name⟩ ∈ (ofModule d b).flowGraph.edges ↔
      ∃ i ∈ a.instances, i.callee = b.name := by
  have hcallees := mem_callees_iff (m := b) hn (List.mem_map_of_mem hb)
  have hcallers := mem_callers_iff (m := b) hn ha
  rw [mem_edges_flowGraph]
  constructor
  · rintro (⟨-, hl⟩ | ⟨hab, hl⟩)
    · exact hcallers.mp hl
    · rw [List.inj_on_of_nodup_map hn ha hb hab]
      exact hcallees.mp hl
  · intro hi
    exact Or.inl ⟨rfl, hcallers.mpr hi⟩

end Section

namespace Document

/-- **References are symmetric and complete.** The document of a design made by any definitions has
one section for each module, in order. Each section refers to the others as it should and has a flow
graph around the box of its module. Of two modules the first instantiates the second exactly when
its section has the second as a callee, exactly when the section of the second has it as a caller,
and exactly when either flow graph has the edge from the first to the second. -/
theorem references_ofDesign (ms : List ModuleInfo) (t : Hierarchy) :
    let d : Design := (Roster.empty : Design).putAll ms
    let doc := ofDesign d t
    doc.sections.map Section.name = d.names ∧
    ∀ a ∈ d.records, ∃ s, doc.section? a.name = some s ∧ s.Refers d doc a ∧
      s.flowGraph.IsFlow a.name ∧
      ∀ b ∈ d.records, ∃ u, doc.section? b.name = some u ∧
        ((∃ l ∈ s.callees, l.name = b.name) ↔ ∃ i ∈ a.instances, i.callee = b.name) ∧
        ((∃ l ∈ u.callers, l.name = a.name) ↔ ∃ i ∈ a.instances, i.callee = b.name) ∧
        (⟨a.name, b.name⟩ ∈ s.flowGraph.edges ↔ ∃ i ∈ a.instances, i.callee = b.name) ∧
        (⟨a.name, b.name⟩ ∈ s.flowGraph.edges ↔ ⟨a.name, b.name⟩ ∈ u.flowGraph.edges) := by
  intro d doc
  have hn : d.names.Nodup := Roster.nodup_names_putAll (r := Roster.empty) List.nodup_nil ms
  have hsection : ∀ a ∈ d.records, doc.section? a.name = some (Section.ofModule d a) :=
    fun a ha => Section.section?_of_mem hn t ha
  refine ⟨?_, fun a ha => ⟨_, hsection a ha, Section.refers_ofModule hn t a,
    Section.isFlow_flowGraph (Section.ofModule d a),
    fun b hb => ⟨_, hsection b hb, ?_, ?_, Section.mem_edges_caller hn ha hb, ?_⟩⟩⟩
  · show (d.records.map (Section.ofModule d)).map Section.name = d.names
    rw [List.map_map]
    rfl
  · exact Section.mem_callees_iff hn (List.mem_map_of_mem hb)
  · exact Section.mem_callers_iff hn ha
  · rw [Section.mem_edges_caller hn ha hb, Section.mem_edges_callee hn ha hb]

end Document

end DesignAtlas
