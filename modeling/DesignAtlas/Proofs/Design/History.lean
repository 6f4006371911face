import DesignAtlas.Proofs.Design.Found
import DesignAtlas.Proofs.ModuleInfo.Reports

/-! # A design as the history of its definitions

Calls make a design out of the empty one: some define one module, others all modules of a source
file. What comes of them is told by the list of the modules defined, in order (`Follows`): the names
stand in the order in which they first came, a name has the module that was defined last under it,
and each definition of a name that was taken is reported, with the files of the new module and of
the one it replaces. One definition keeps this (`Follows.enter`), so all calls do
(`follows_ofCalls`). -/

namespace DesignAtlas.Design

/-! ### Calls -/

/-- A call that adds to a design. -/
inductive Call where
  /-- Defines one module. -/
  | define (m : ModuleInfo)
  /-- Defines the modules of a source file. -/
  | addFile (o : Options) (file : SourceFile)

namespace Call

/-- The design and all diagnostics after one more call. -/
def run (s : Design × List Diagnostic) : Call → Design × List Diagnostic
  | define m => ((s.1.define m).1, s.2 ++ (s.1.define m).2)
  | addFile o file => Design.addFile o s file

/-- The modules that the call defines, in order, each with what its own text has reported. -/
def entries : Call → List (ModuleInfo × List Diagnostic)
  | define m => [(m, [])]
  | addFile o file => found o file

/-- The modules that the call defines, in order. -/
def modules (c : Call) : List ModuleInfo := c.entries.map Prod.fst

end Call

/-- The design that calls make of the empty one, and all diagnostics. -/
def ofCalls (calls : List Call) : Design × List Diagnostic :=
  calls.foldl Call.run (Roster.empty, [])

/-! ### What a history says -/

/-- The last module of the name. -/
def latest? (ms : List ModuleInfo) (n : String) : Option ModuleInfo :=
  ms.reverse.find? fun m => m.name == n

/-- The modules defined under a name that was taken, each with the one that it replaces, which is
the last one of the name before it. -/
def replacements (earlier : List ModuleInfo) : List ModuleInfo → List (ModuleInfo × ModuleInfo)
  | [] => []
  | m :: ms =>
    ((latest? earlier m.name).map fun old => (m, old)).toList ++ replacements (earlier ++ [m]) ms

/-- The report of a module that replaces another one. -/
def replacementReport (x : ModuleInfo × ModuleInfo) : Diagnostic :=
  ⟨.moduleRedefined, x.1.name, x.1.sourceFile ++ " replaces definition from " ++ x.2.sourceFile⟩

/-- The design and the diagnostics are those of defining the modules in order. -/
structure Follows (ms : List ModuleInfo) (s : Design × List Diagnostic) : Prop where
  /-- Each name stands once. -/
  distinct : s.1.names.Nodup
  /-- A module is found under its own name only. -/
  keyed : ∀ n m, s.1.find? n = some m → m.name = n
  /-- The names stand in the order in which they first came. -/
  order : s.1.names = (ms.map ModuleInfo.name).eraseDups
  latest : ∀ n, s.1.find? n = latest? ms n
  reports : Diagnostic.ofKind .moduleRedefined s.2 = (replacements [] ms).map replacementReport
  count : ms.length = s.1.size + (Diagnostic.ofKind .moduleRedefined s.2).length

/-! ### Histories that grow -/

theorem latest?_concat (ms : List ModuleInfo) (m : ModuleInfo) (n : String) :
    latest? (ms ++ [m]) n = if m.name = n then some m else latest? ms n := by
  unfold latest?
  rw [List.reverse_append, List.reverse_singleton, List.singleton_append, List.find?_cons]
  by_cases h : m.name = n
  · rw [if_pos h, beq_iff_eq.mpr h]
  · rw [if_neg h, beq_false_of_ne h]

theorem replacements_concat : ∀ (earlier ms : List ModuleInfo) (m : ModuleInfo),
    replacements earlier (ms ++ [m]) = replacements earlier ms ++
      ((latest? (earlier ++ ms) m.name).map fun old => (m, old)).toList
  | earlier, [], m => by simp [replacements]
  | earlier, x :: ms, m => by
    rw [List.cons_append, replacements, replacements, replacements_concat, ← List.append_cons,
      List.append_assoc]

/-! ### One more definition -/

theorem redefinition_eq (d : Design) (m : ModuleInfo) :
    redefinition d m = ((d.find? m.name).map fun old => replacementReport (m, old)).toList := by
  unfold redefinition
  cases d.find? m.name <;> rfl

/-- The reports of redefinition after one more definition, when the text of the module has reported
none. -/
theorem ofKind_enter (s : Design × List Diagnostic) {x : ModuleInfo × List Diagnostic}
    (hx : ∀ d ∈ x.2, d.kind ≠ .moduleRedefined) :
    Diagnostic.ofKind .moduleRedefined (enter s x).2 =
      Diagnostic.ofKind .moduleRedefined s.2 ++ redefinition s.1 x.1 := by
  have hnone : Diagnostic.ofKind .moduleRedefined x.2 = [] :=
    List.filter_eq_nil_iff.mpr fun d hd => by simpa using hx d hd
  have hself : Diagnostic.ofKind .moduleRedefined (redefinition s.1 x.1) =
      redefinition s.1 x.1 := by
    unfold redefinition
    split <;> rfl
  unfold Diagnostic.ofKind at hnone hself ⊢
  unfold enter
  rw [List.filter_append, List.filter_append, hnone, hself, List.append_nil]

/-- **One definition keeps the history.** -/
theorem Follows.enter {ms : List ModuleInfo} {s : Design × List Diagnostic} (h : Follows ms s)
    {x : ModuleInfo × List Diagnostic} (hx : ∀ d ∈ x.2, d.kind ≠ .moduleRedefined) :
    Follows (ms ++ [x.1]) (Design.enter s x) := by
  obtain ⟨m, ds⟩ := x
  have hreports := ofKind_enter s hx
  have hdistinct : (s.1.put m).names.Nodup := Roster.nodup_names_put h.distinct m
  refine ⟨hdistinct, fun n y hy => ?_, ?_, fun n => ?_, ?_, ?_⟩
  · exact ((Roster.find?_eq_some_iff hdistinct).mp hy).2
  · rw [List.map_append, List.map_singleton]
    exact Roster.names_put_of_eraseDups h.order m
  · rw [latest?_concat, ← h.latest n]
    split_ifs with hn
    · subst hn
      exact Roster.find?_put_self s.1 m
    · exact Roster.find?_put_of_ne s.1 hn
  · rw [hreports, h.reports, redefinition_eq, h.latest, replacements_concat, List.nil_append,
      List.map_append]
    cases latest? ms m.name <;> rfl
  · -- the name is new and the design grows, or it is taken and a report is added
    have hsize : (s.1.put m).size = if s.1.contains m.name then s.1.size else s.1.size + 1 :=
      Roster.size_put s.1 m
    have hreport : (redefinition s.1 m).length = if s.1.contains m.name then 1 else 0 := by
      rw [redefinition_eq, Roster.contains_eq_isSome]
      cases s.1.find? m.name <;> rfl
    have hcount := h.count
    rw [hreports, List.length_append, List.length_append, List.length_singleton, hreport]
    show ms.length + 1 = (s.1.put m).size + _
    rw [hsize]
    split_ifs <;> omega

/-! ### Any calls -/

theorem follows_empty : Follows [] (Roster.empty, []) where
  distinct := List.nodup_nil
  keyed := fun _ _ h => by cases h
  order := by simp
  latest := fun _ => rfl
  reports := rfl
  count := rfl

theorem Follows.foldl_enter : ∀ (xs : List (ModuleInfo × List Diagnostic)) {ms : List ModuleInfo}
    {s : Design × List Diagnostic}, Follows ms s →
      (∀ x ∈ xs, ∀ d ∈ x.2, d.kind ≠ .moduleRedefined) →
        Follows (ms ++ xs.map Prod.fst) (xs.foldl Design.enter s)
  | [], _, _, h, _ => by simpa using h
  | x :: xs, _, _, h, hx => by
    have hstep := h.enter (hx x (by simp))
    have := foldl_enter xs hstep fun y hy => hx y (by simp [hy])
    rwa [List.append_assoc, List.singleton_append] at this

theorem Call.run_eq (s : Design × List Diagnostic) (c : Call) :
    c.run s = c.entries.foldl Design.enter s := by
  cases c with
  | define m =>
    show (s.1.put m, s.2 ++ redefinition s.1 m) = Design.enter s (m, [])
    unfold Design.enter
    rw [List.append_nil]
  | addFile o file => exact addFile_eq o s file

/-- What a module's own text has reported is no redefinition. -/
theorem Call.kind_ne_of_mem_entries {c : Call} {x : ModuleInfo × List Diagnostic}
    (hx : x ∈ c.entries) : ∀ d ∈ x.2, d.kind ≠ .moduleRedefined := by
  intro d hd
  cases c with
  | define m =>
    obtain rfl := List.mem_singleton.mp hx
    cases hd
  | addFile o file =>
    obtain ⟨decl, -, rfl⟩ := List.mem_map.mp hx
    intro hk
    have := (ModuleInfo.about_ofDecl _ _ _ _ d hd).kind
    rw [hk] at this
    simp at this

theorem Follows.foldl_run : ∀ (calls : List Call) {ms : List ModuleInfo}
    {s : Design × List Diagnostic}, Follows ms s →
      Follows (ms ++ calls.flatMap Call.modules) (calls.foldl Call.run s)
  | [], _, _, h => by simpa using h
  | c :: calls, _, s, h => by
    have hstep := h.foldl_enter c.entries fun x hx => Call.kind_ne_of_mem_entries hx
    rw [← Call.run_eq] at hstep
    have := foldl_run calls hstep
    rwa [List.append_assoc] at this

/-- **A design follows the history of its definitions.** After any calls on the empty design each
name stands once and is that of its module, the names stand in the order in which they first came,
look-up gives the last module defined under a name, as many modules were defined as there are names
and reports of redefinition, and these reports are, in order, those of the modules that came under a
taken name: each tells the name, the file of the new module and the file of the module that stood
under the name at that moment. -/
theorem follows_ofCalls (calls : List Call) :
    Follows (calls.flatMap Call.modules) (ofCalls calls) := by
  have := follows_empty.foldl_run calls
  rwa [List.nil_append] at this

end DesignAtlas.Design
