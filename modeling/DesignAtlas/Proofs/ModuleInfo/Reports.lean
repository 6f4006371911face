import DesignAtlas.ModuleInfo
import Mathlib.Tactic.Common

/-! # What the diagnostics of a module are about

Reading a declaration reports pins, parameters and directives of that declaration and nothing else
(`about_ofDecl`): each diagnostic carries the name of the module, and none is about definitions or
instances. -/

namespace DesignAtlas

/-- The diagnostic is about the text of the module. -/
structure Diagnostic.About (module : String) (d : Diagnostic) : Prop where
  module : d.module = module
  kind : d.kind ∈ [DiagnosticKind.unrecognizedPin, .unrecognizedParameter, .unbalancedEndif]

variable {module : String} {o : Options}

theorem PinList.about_step {text : Text} {s : PinList}
    (h : ∀ d ∈ s.diagnostics, d.About module) (item : PinItem) :
    ∀ d ∈ (s.step module text item).diagnostics, d.About module := by
  intro d hd
  cases item with
  | directive e =>
    simp only [step, stepDirective] at hd
    split_ifs at hd
    · rcases List.mem_append.mp hd with hd | hd
      · exact h d hd
      · rw [List.mem_singleton.mp hd]
        exact ⟨rfl, by simp⟩
    · exact h d hd
  | declaration ts =>
    unfold step at hd
    cases hdecl : PinDecl.ofTokens? text ts with
    | some e =>
      simp only [hdecl, stepDecl] at hd
      exact h d hd
    | none =>
      simp only [hdecl, stepUnknown] at hd
      rcases List.mem_append.mp hd with hd | hd
      · exact h d hd
      · rw [List.mem_singleton.mp hd]
        exact ⟨rfl, by simp⟩

theorem PinList.about_foldl {text : Text} : ∀ (items : List PinItem) {s : PinList},
    (∀ d ∈ s.diagnostics, d.About module) →
      ∀ d ∈ (items.foldl (step module text) s).diagnostics, d.About module
  | [], _, h => h
  | item :: items, _, h => about_foldl items (about_step h item)

theorem Statement.about_bodyDiagnostics {body : Text} :
    ∀ d ∈ Statement.bodyDiagnostics module o body, d.About module := by
  intro d hd
  obtain ⟨e, -, rfl⟩ := List.mem_map.mp hd
  exact ⟨rfl, by simp⟩

namespace ModuleInfo

theorem about_headerContents (source : Text) (o : Options) (decl : ModuleDecl) :
    ∀ d ∈ (headerContents source o decl).diagnostics, d.About decl.name := by
  intro d hd
  simp only [headerContents, List.mem_append] at hd
  rcases hd with (hd | hd) | hd
  · exact PinList.about_foldl _ (by simp) d hd
  · obtain ⟨t, -, rfl⟩ := List.mem_map.mp hd
    exact ⟨rfl, by simp⟩
  · exact Statement.about_bodyDiagnostics d hd

namespace Contents

/-- Stating pins and adding instances reports nothing. -/
theorem diagnostics_addOther (s : Statement) (c : Contents) :
    (c.addOther o s).diagnostics = c.diagnostics := by
  have hinstance : (c.addInstance o s).diagnostics = c.diagnostics := by
    unfold addInstance
    split <;> rfl
  unfold addOther
  split_ifs
  · exact hinstance
  · split
    · rfl
    · exact hinstance

theorem about_addStatement {c : Contents} (h : ∀ d ∈ c.diagnostics, d.About module)
    (s : Statement) : ∀ d ∈ (c.addStatement module o s).diagnostics, d.About module := by
  intro d hd
  unfold addStatement at hd
  split at hd
  · rw [diagnostics_addOther] at hd
    exact h d hd
  · dsimp only at hd
    split_ifs at hd
    · exact h d hd
    · rw [diagnostics_addOther] at hd
      rcases List.mem_append.mp hd with hd | hd
      · exact h d hd
      · rw [List.mem_singleton.mp hd]
        exact ⟨rfl, by simp⟩

theorem about_foldl : ∀ (ss : List Statement) {c : Contents},
    (∀ d ∈ c.diagnostics, d.About module) →
      ∀ d ∈ (ss.foldl (addStatement module o) c).diagnostics, d.About module
  | [], _, h => h
  | s :: ss, _, h => about_foldl ss (about_addStatement h s)

end Contents

/-- **The diagnostics of a declaration are about its module.** -/
theorem about_ofDecl (file : String) (source : Text) (o : Options) (decl : ModuleDecl) :
    ∀ d ∈ (ofDecl file source o decl).2, d.About decl.name :=
  Contents.about_foldl _ (about_headerContents source o decl)

end ModuleInfo

end DesignAtlas
