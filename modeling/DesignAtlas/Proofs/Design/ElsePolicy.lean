import DesignAtlas.Proofs.Design.Found
import DesignAtlas.Proofs.Hierarchy.Expansion
import DesignAtlas.Proofs.ModuleInfo.Fade

/-! # What the else policy changes

The else policy decides which condition is reported in an `else` branch, and nothing else. Designs
built under two policies are the same when faded, that is, up to the texts of conditions
(`fade_ofFiles`). Fading keeps names and callees, so look-up and expansion do not feel it
(`expand_map_fade`).

The main result, `ofFiles_withElse`, says it without fading: designs, diagnostics and hierarchies
are the same once the conditions are left out, and corresponding lists of conditions have the same
length. -/

namespace DesignAtlas

section Policy

variable (o : Options) (p q : ElsePolicy)

/-! ### Designs -/

namespace Design

/-- A design and its diagnostics with all conditions faded. -/
def fadeAll (s : Design × List Diagnostic) : Design × List Diagnostic :=
  Prod.map (Roster.map ModuleInfo.fade) id s

theorem redefinition_map_fade (d : Design) (m : ModuleInfo) :
    redefinition (d.map ModuleInfo.fade) m.fade = redefinition d m := by
  have hname : m.fade.name = m.name := rfl
  unfold redefinition
  rw [hname, Roster.find?_map ModuleInfo.keepsNames_fade]
  cases d.find? m.name <;> rfl

theorem fadeAll_enter (s : Design × List Diagnostic) (m : ModuleInfo × List Diagnostic) :
    fadeAll (enter s m) = enter (fadeAll s) (Prod.map ModuleInfo.fade id m) := by
  unfold fadeAll enter
  simp only [Prod.map, id, redefinition_map_fade, Roster.map_put ModuleInfo.keepsNames_fade]

theorem fadeAll_foldl_enter : ∀ (ms : List (ModuleInfo × List Diagnostic))
    (s : Design × List Diagnostic), fadeAll (ms.foldl enter s) =
      (ms.map (Prod.map ModuleInfo.fade id)).foldl enter (fadeAll s)
  | [], _ => rfl
  | m :: ms, s => by
    rw [List.foldl_cons, fadeAll_foldl_enter ms, fadeAll_enter]
    rfl

theorem fade_found (file : SourceFile) :
    (found (o.withElse p) file).map (Prod.map ModuleInfo.fade id) =
      (found (o.withElse q) file).map (Prod.map ModuleInfo.fade id) := by
  unfold found
  rw [List.map_map, List.map_map]
  exact List.map_congr_left fun d _ => ModuleInfo.fade_ofDecl o p q file.path _ d

/-- **Two designs built under two policies** differ in the texts of conditions only. -/
theorem fade_ofFiles (files : List SourceFile) :
    fadeAll (ofFiles (o.withElse p) files) = fadeAll (ofFiles (o.withElse q) files) := by
  rw [ofFiles_eq, ofFiles_eq, fadeAll_foldl_enter, fadeAll_foldl_enter, List.map_flatMap,
    List.map_flatMap]
  simp only [fade_found o p q]

end Design

/-! ### Hierarchies -/

namespace Hierarchy

theorem expandAll_map_fade (d : Design) (path : List String) (owner : String)
    (is : List Instance) :
    expandAll (d.map ModuleInfo.fade) path owner (is.map Instance.fade) =
      expandAll d path owner is := by
  have hfind := Roster.find?_map ModuleInfo.keepsNames_fade d
  -- the recursion of `expandAll d`, whose cases look at callees and at look-up alone
  induction path, owner, is using expandAll_induct d with
  | nil path owner => rw [List.map_nil, expandAll_nil, expandAll_nil]
  | unknown path owner i is hnone ih =>
    have hnone' : (d.map ModuleInfo.fade).find? i.fade.callee = none := by
      rw [hfind]
      exact congrArg _ hnone
    rw [List.map_cons, expandAll_unknown hnone, expandAll_unknown hnone', ih]
  | cycle path owner i is m hsome hp ih =>
    have hsome' : (d.map ModuleInfo.fade).find? i.fade.callee = some m.fade := by
      rw [hfind]
      exact congrArg _ hsome
    rw [List.map_cons, expandAll_cycle hsome hp, expandAll_cycle hsome' hp, ih]
    rfl
  | opened path owner i is m hsome hp ih ih' =>
    have hsome' : (d.map ModuleInfo.fade).find? i.fade.callee = some m.fade := by
      rw [hfind]
      exact congrArg _ hsome
    have hbelow : expandAll (d.map ModuleInfo.fade) (path ++ [i.fade.callee]) i.fade.callee
        m.fade.instances = expandAll d (path ++ [i.callee]) i.callee m.instances := ih'
    rw [List.map_cons, expandAll_open hsome hp, expandAll_open hsome' hp, ih, hbelow]
    rfl

/-- **Expansion does not look at conditions.** -/
theorem expand_map_fade (d : Design) (root : String) :
    expand (d.map ModuleInfo.fade) root = expand d root := by
  rw [expand_eq, expand_eq, Roster.find?_map ModuleInfo.keepsNames_fade]
  cases d.find? root with
  | none => rfl
  | some m =>
    have h := expandAll_map_fade d [root] root m.instances
    simp only [Option.map_some, ModuleInfo.fade, h]

end Hierarchy

end Policy

/-! ### Leaving the conditions out -/

/-- The pin without its conditions. -/
def Pin.unconditional (p : Pin) : Pin := { p with conditionals := [] }

/-- The instance without its conditions. -/
def Instance.unconditional (i : Instance) : Instance := { i with conditionals := [] }

namespace ModuleInfo

/-- The module without the conditions of its pins and instances. -/
def unconditional (m : ModuleInfo) : ModuleInfo :=
  { m with
    pins := m.pins.map Pin.unconditional
    instances := m.instances.map Instance.unconditional }

/-- How many conditions each pin and each instance of the module has, in order. -/
def conditionCounts (m : ModuleInfo) : List Nat × List Nat :=
  (m.pins.records.map fun p => p.conditionals.length,
    m.instances.map fun i => i.conditionals.length)

theorem unconditional_fade (m : ModuleInfo) : m.fade.unconditional = m.unconditional := by
  simp [fade, unconditional, Roster.map, Function.comp_def, Pin.fade, Pin.unconditional,
    Instance.fade, Instance.unconditional]

theorem conditionCounts_fade (m : ModuleInfo) : m.fade.conditionCounts = m.conditionCounts := by
  simp [fade, conditionCounts, Roster.map, Function.comp_def, Pin.fade, Instance.fade]

end ModuleInfo

namespace Design

/-- What of a design a function of its modules sees does not change when all conditions fade, if the
function does not see it in any module. -/
theorem map_records_fade {α : Type} {f : ModuleInfo → α} (hf : ∀ m, f m.fade = f m) (d : Design) :
    (d.map ModuleInfo.fade).records.map f = d.records.map f := by
  unfold Roster.map
  rw [List.map_map]
  exact List.map_congr_left fun m _ => hf m

/-- **The else policy changes nothing but the reported conditions.** Under any two policies the same
files give the same diagnostics, designs that are the same without their conditions and, below every
root, the same hierarchy with the same reports; and each pin and instance has as many conditions
under the one as under the other. -/
theorem ofFiles_withElse (o : Options) (p q : ElsePolicy) (files : List SourceFile)
    (root : String) :
    let a := ofFiles (o.withElse p) files
    let b := ofFiles (o.withElse q) files
    a.2 = b.2 ∧ Hierarchy.expand a.1 root = Hierarchy.expand b.1 root ∧
      a.1.map ModuleInfo.unconditional = b.1.map ModuleInfo.unconditional ∧
      a.1.records.map ModuleInfo.conditionCounts = b.1.records.map ModuleInfo.conditionCounts := by
  intro a b
  have h : fadeAll a = fadeAll b := fade_ofFiles o p q files
  have hdesign : a.1.map ModuleInfo.fade = b.1.map ModuleInfo.fade := congrArg Prod.fst h
  have hdiagnostics : (fadeAll a).2 = (fadeAll b).2 := congrArg Prod.snd h
  refine ⟨hdiagnostics, ?_, ?_, ?_⟩
  · rw [← Hierarchy.expand_map_fade a.1, hdesign, Hierarchy.expand_map_fade]
  · unfold Roster.map
    rw [← map_records_fade ModuleInfo.unconditional_fade a.1, hdesign,
      map_records_fade ModuleInfo.unconditional_fade]
  · rw [← map_records_fade ModuleInfo.conditionCounts_fade a.1, hdesign,
      map_records_fade ModuleInfo.conditionCounts_fade]

/-- The conditions themselves do depend on the policy. -/
example :
    let file : SourceFile :=
      ⟨"m.v", "module m(\n`ifdef A\na,\n`else\nb\n`endif\n); endmodule".toList⟩
    ofFiles (Options.withElse {} .keep) [file] ≠ ofFiles (Options.withElse {} .negate) [file] := by
  decide +kernel

end Design

end DesignAtlas
