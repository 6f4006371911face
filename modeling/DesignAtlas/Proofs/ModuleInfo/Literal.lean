import DesignAtlas.Proofs.Instance.Callee
import DesignAtlas.Proofs.ModuleInfo.Instances
import DesignAtlas.Proofs.ModuleInfo.Reports
import DesignAtlas.Proofs.Parameter.Skeleton
import DesignAtlas.Proofs.Pin.Requoted
import DesignAtlas.Proofs.Statement.Requoted

/-! # Modules with another content in a string literal

The body of a module is cut into lines and statements without regard to string literals, so a
content that holds a directive or a semicolon leaks into what is recorded. Contents without
directives leave the directives that close no region. If they hold no semicolon either and the
literal is a token of the statement in which it stands, the module has parameters of the same
names, and pins that differ at most in the text of the literal in a size
(`ModuleInfo.contents_requoted`). If besides the contents are of one shape, the same modules are
instantiated (`ModuleInfo.callees_requoted`). -/

namespace DesignAtlas

open List (Forall₂)
open Text (literal LiteralAt Correspond)

/-- The literal is a token of the statement in which it stands. -/
def Statement.Holds (c c' : Text) (s s' : Statement) : Prop :=
  ∀ u v, s.text = u ++ literal c ++ v → s'.text = u ++ literal c' ++ v → LiteralAt u c v

instance (c c' : Text) (s s' : Statement) : Decidable (Statement.Holds c c' s s') :=
  decidable_of_iff (∀ u ∈ s.text.inits, ∀ v ∈ s.text.tails, s.text = u ++ literal c ++ v →
      s'.text = u ++ literal c' ++ v → LiteralAt u c v) <| by
    refine ⟨fun h u v hs => h u ?_ v ?_ hs, fun h u _ v _ => h u v⟩
    · rw [List.mem_inits, hs, List.append_assoc]
      exact List.prefix_append ..
    · rw [List.mem_tails, hs]
      exact List.suffix_append ..

/-- Where statements of the two bodies differ in the content of the literal, it is a token of them.
-/
def Statement.AllHold (o : Options) (a c c' z : Text) : Prop :=
  ∀ p ∈ (ofBody o (a ++ literal c ++ z)).zip (ofBody o (a ++ literal c' ++ z)), p.1.Holds c c' p.2

instance (o : Options) (a c c' z : Text) : Decidable (Statement.AllHold o a c c' z) :=
  inferInstanceAs (Decidable (∀ p ∈ List.zip _ _, Statement.Holds c c' p.1 p.2))

/-- The declarations have the same header; the body of the first holds the literal of `c` between
`a` and `z`, that of the second the literal of `c'`. -/
structure ModuleDecl.Requoted (a c c' z source source' : Text) (d d' : ModuleDecl) : Prop where
  name : d'.name = d.name
  pinList : d'.pinList source' = d.pinList source
  parameterBlock? : d'.parameterBlock? source' = d.parameterBlock? source
  body : d.body source = a ++ literal c ++ z
  body' : d'.body source' = a ++ literal c' ++ z

variable {K : Prop} {a c c' z : Text} {o : Options}

namespace Statement

variable {s s' : Statement}

/-- The tokens of statements that differ in a literal that they hold correspond. -/
theorem Requoted.exists_correspond (h : s.Requoted K c c' s') (hc : c.Quotable) (hc' : c'.Quotable)
    (hs : s.Holds c c' s') : ∃ f, Correspond c c' f s.text s'.text := by
  rcases h.text with hsame | ⟨u, v, ht, ht'⟩
  · rw [hsame]
    exact ⟨id, .refl c c' s.text⟩
  · rw [ht, ht']
    exact (hs u v ht ht').exists_correspond hc hc'

/-- **The statements of the two bodies correspond,** and so do the tokens of each. -/
theorem forall₂_of_allHold (hc : c.Inert) (hc' : c'.Inert) (h : AllHold o a c c' z) :
    Forall₂ (fun s s' =>
        s.Requoted (SameConditions (a ++ literal c ++ z) (a ++ literal c' ++ z)) c c' s' ∧
          s.Holds c c' s' ∧ ∃ f, Correspond c c' f s.text s'.text)
      (ofBody o (a ++ literal c ++ z)) (ofBody o (a ++ literal c' ++ z)) := by
  have hrelated := forall₂_ofBody hc hc' o a z
  refine List.forall₂_iff_zip.mpr ⟨hrelated.length_eq, fun hmem => ?_⟩
  have hs := (List.forall₂_iff_zip.mp hrelated).2 hmem
  exact ⟨hs, h _ hmem, hs.exists_correspond hc.toQuotable hc'.toQuotable (h _ hmem)⟩

/-- **Statements that differ in a literal that they hold have the same callee,** if the contents are
of one shape. -/
theorem Requoted.callee_eq (h : s.Requoted K c c' s')
    (ho : ∀ w ∈ o.extraReservedWords, '\x22' ∉ w.toList) (hshape : Text.SameShape c c')
    (hs : s.Holds c c' s') :
    (Instance.ofStatement? o s').map Instance.callee =
      (Instance.ofStatement? o s).map Instance.callee := by
  rcases h.text with hsame | ⟨u, v, ht, ht'⟩
  · rw [Instance.callee_ofStatement?, Instance.callee_ofStatement?, hsame]
  · exact Instance.callee_of_literal ho hshape (hs u v ht ht') ht ht'

end Statement

namespace ModuleInfo

/-! ### One statement -/

namespace Contents

/-- The pins differ at most in the content of a literal, and the parameters have the same names. -/
structure Requoted (K : Prop) (c c' : Text) (x x' : Contents) : Prop where
  pins : Forall₂ (Pin.Requoted K c c') x.pins.records x'.pins.records
  parameters : x'.parameters.names = x.parameters.names

variable {x x' : Contents} {s s' : Statement}

theorem addInstance_eq (o : Options) (s : Statement) (x : Contents) :
    (x.addInstance o s).pins = x.pins ∧ (x.addInstance o s).parameters = x.parameters := by
  unfold addInstance
  split
  · exact ⟨rfl, rfl⟩
  · exact ⟨rfl, rfl⟩

theorem Requoted.addInstance (h : x.Requoted K c c' x') :
    (x.addInstance o s).Requoted K c c' (x'.addInstance o s') := by
  obtain ⟨hpins, hparameters⟩ := addInstance_eq o s x
  obtain ⟨hpins', hparameters'⟩ := addInstance_eq o s' x'
  exact ⟨by rw [hpins, hpins']; exact h.pins, by rw [hparameters, hparameters']; exact h.parameters⟩

theorem Requoted.addOther (h : x.Requoted K c c' x') (hs : s.Requoted K c c' s')
    {f : Token → Token} (hf : Correspond c c' f s.text s'.text) :
    (x.addOther o s).Requoted K c c' (x'.addOther o s') := by
  unfold Contents.addOther
  rw [hs.inSubprogram]
  split_ifs
  · exact h.addInstance
  · have hrefine := PinDecl.rel_refine? hf hs.conditionals h.pins
    generalize PinDecl.refine? x.pins s.text s.conditionals = pins at hrefine ⊢
    generalize PinDecl.refine? x'.pins s'.text s'.conditionals = pins' at hrefine ⊢
    cases hrefine with
    | none => exact h.addInstance
    | some hpins => exact ⟨hpins, h.parameters⟩

/-- **Statements whose tokens correspond** keep the contents alike. -/
theorem Requoted.addStatement (module : String) (h : x.Requoted K c c' x')
    (hs : s.Requoted K c c' s') {f : Token → Token} (hf : Correspond c c' f s.text s'.text) :
    (x.addStatement module o s).Requoted K c c' (x'.addStatement module o s') := by
  have hdeclared := Parameter.rel_ofStatement?_map hf.skeleton hf.scan o
  unfold Contents.addStatement
  generalize Parameter.ofStatement? o s.text = d at hdeclared ⊢
  generalize Parameter.ofStatement? o s'.text = d' at hdeclared ⊢
  cases hdeclared with
  | none => exact h.addOther hs hf
  | @some d d' hsame =>
    have hnames : d'.parameters.map Named.name = d.parameters.map Named.name :=
      congrArg Prod.fst hsame
    have hparameters : (x.addParameters d.parameters).Requoted K c c'
        (x'.addParameters d'.parameters) :=
      ⟨h.pins, Roster.names_putAll_congr h.parameters hnames⟩
    simp only [Parameter.Declared.isEmpty_of_outline hsame]
    split_ifs
    · exact hparameters
    · exact Requoted.addOther ⟨hparameters.pins, hparameters.parameters⟩ hs hf

theorem Requoted.foldl (module : String) : ∀ {ss ss' : List Statement},
    Forall₂ (fun s s' => s.Requoted K c c' s' ∧ ∃ f, Correspond c c' f s.text s'.text) ss ss' →
      ∀ {x x' : Contents}, x.Requoted K c c' x' →
        (ss.foldl (Contents.addStatement module o) x).Requoted K c c'
          (ss'.foldl (Contents.addStatement module o) x')
  | _, _, .nil, _, _, h => h
  | _, _, .cons ⟨hs, _, hf⟩ hrest, _, _, h =>
    Requoted.foldl module hrest (h.addStatement module hs hf)

/-- Statements close no regions. -/
theorem ofKind_addStatement (module : String) (o : Options) (x : Contents) (s : Statement) :
    Diagnostic.ofKind .unbalancedEndif (x.addStatement module o s).diagnostics =
      Diagnostic.ofKind .unbalancedEndif x.diagnostics := by
  unfold Contents.addStatement
  split
  · rw [diagnostics_addOther]
  · dsimp only
    split_ifs
    · rfl
    · rw [diagnostics_addOther, report, Diagnostic.ofKind, List.filter_append]
      exact List.append_nil _

theorem ofKind_foldl (module : String) (o : Options) : ∀ (ss : List Statement) (x : Contents),
    Diagnostic.ofKind .unbalancedEndif (ss.foldl (Contents.addStatement module o) x).diagnostics =
      Diagnostic.ofKind .unbalancedEndif x.diagnostics
  | [], _ => rfl
  | s :: ss, x => by rw [List.foldl_cons, ofKind_foldl module o ss, ofKind_addStatement]

end Contents

/-- **Statements that differ in a literal that they hold are recorded alike**, if the contents are
of one shape. -/
theorem callee_recorded? {s s' : Statement} (h : s.Requoted K c c' s') (hs : s.Holds c c' s')
    {f : Token → Token} (hf : Correspond c c' f s.text s'.text)
    (ho : ∀ w ∈ o.extraReservedWords, '\x22' ∉ w.toList) (hshape : Text.SameShape c c') :
    (recorded? o s').map Instance.callee = (recorded? o s).map Instance.callee := by
  have hdeclared := Parameter.rel_ofStatement?_map hf.skeleton hf.scan o
  have hdeclares : (Parameter.ofStatement? o s'.text).any (·.rejected.isEmpty) =
      (Parameter.ofStatement? o s.text).any (·.rejected.isEmpty) := by
    generalize Parameter.ofStatement? o s.text = d at hdeclared ⊢
    generalize Parameter.ofStatement? o s'.text = d' at hdeclared ⊢
    cases hdeclared with
    | none => rfl
    | some hsame => exact Parameter.Declared.isEmpty_of_outline hsame
  have hdirection : PinDecl.beginsWithDirection (PinItem.ofTokens (Token.scan s'.text)) =
      PinDecl.beginsWithDirection (PinItem.ofTokens (Token.scan s.text)) := by
    rw [hf.scan, PinItem.ofTokens_map hf.skeleton, PinDecl.beginsWithDirection_map hf.skeleton]
  unfold recorded?
  rw [hdeclares, hdirection, h.inSubprogram]
  split_ifs
  · rfl
  · rfl
  · exact h.callee_eq ho hshape hs

theorem map_callee_filterMap {ss ss' : List Statement}
    (h : Forall₂ (fun s s' =>
      (recorded? o s').map Instance.callee = (recorded? o s).map Instance.callee) ss ss') :
    (ss'.filterMap (recorded? o)).map Instance.callee =
      (ss.filterMap (recorded? o)).map Instance.callee := by
  rw [List.map_filterMap, List.map_filterMap]
  induction h with
  | nil => rfl
  | cons hs _ ih => rw [List.filterMap_cons, List.filterMap_cons, hs, ih]

/-! ### The module -/

theorem headerContents_requoted {source source' : Text} {d d' : ModuleDecl}
    (hd : d.Requoted a c c' z source source' d') (hc : c.Mute) (hc' : c'.Mute) (o : Options) :
    headerContents source' o d' = headerContents source o d := by
  unfold headerContents
  rw [hd.name, hd.pinList, hd.parameterBlock?, hd.body, hd.body',
    Statement.bodyDiagnostics_literal hc hc']

section Inert

variable {source source' : Text} {d d' : ModuleDecl}
  (hd : d.Requoted a c c' z source source' d') (hc : c.Inert) (hc' : c'.Inert)
  (hall : Statement.AllHold o a c c' z)
include hd hc hc' hall

theorem contents_requoted :
    (contents source o d).Requoted (Statement.SameConditions (d.body source) (d'.body source')) c c'
      (contents source' o d') := by
  have hrun := Contents.Requoted.foldl (o := o) d.name
    ((Statement.forall₂_of_allHold hc hc' hall).imp fun s s' hs => And.intro hs.1 hs.2.2)
    ⟨List.forall₂_same.mpr fun p _ => .refl _ c c' p,
      Eq.refl (headerContents source o d).parameters.names⟩
  unfold contents
  rw [headerContents_requoted hd hc.toMute hc'.toMute o, hd.name, hd.body, hd.body']
  exact hrun

theorem callees_requoted (ho : ∀ w ∈ o.extraReservedWords, '\x22' ∉ w.toList)
    (hshape : Text.SameShape c c') (file file' : String) :
    (ofDecl file' source' o d').1.instances.map Instance.callee =
      (ofDecl file source o d).1.instances.map Instance.callee := by
  rw [instances_ofDecl, instances_ofDecl, hd.body, hd.body']
  refine map_callee_filterMap ((Statement.forall₂_of_allHold hc hc' hall).imp fun s s' hs => ?_)
  obtain ⟨hrelated, hholds, f, hf⟩ := hs
  exact callee_recorded? hrelated hholds hf ho hshape

end Inert

/-- A declaration that is a pin list and a body. -/
def headed (pins body : Text) : ModuleDecl :=
  ⟨"", ⟨.start, .start⟩, none, some ⟨.start, Position.start.advance pins⟩,
    ⟨Position.start.advance pins, Position.start.advance (pins ++ body)⟩⟩

theorem requoted_headed (pins a c c' z : Text) :
    (headed pins (a ++ literal c ++ z)).Requoted a c c' z (pins ++ (a ++ literal c ++ z))
      (pins ++ (a ++ literal c' ++ z)) (headed pins (a ++ literal c' ++ z)) := by
  have hpins : ∀ body, (headed pins body).pinList (pins ++ body) = pins := fun body =>
    Span.slice_append [] pins body
  have hbody : ∀ body, (headed pins body).body (pins ++ body) = body := fun body => by
    have := Span.slice_append pins body []
    rwa [List.append_nil] at this
  exact ⟨rfl, by rw [hpins, hpins], rfl, hbody _, hbody _⟩

/-- **A module with another content in a string literal of its body.** If neither content holds a
directive, the same directives close no region. If besides neither holds a semicolon and the
literal is a token of the statement in which it stands, the parameters have the same names, and the
pins differ at most in the content of the literal in a size and, where the conditional directives
differ, in their conditions. If besides the contents are of one shape and no reserved word holds a
quote, the same modules are instantiated. -/
theorem requoted_ofDecl {source source' : Text} {d d' : ModuleDecl}
    (hd : d.Requoted a c c' z source source' d') (hc : c.Mute) (hc' : c'.Mute) (file file' : String)
    (o : Options) :
    let m := (ofDecl file source o d).1
    let m' := (ofDecl file' source' o d').1
    Diagnostic.ofKind .unbalancedEndif (ofDecl file' source' o d').2 =
        Diagnostic.ofKind .unbalancedEndif (ofDecl file source o d).2 ∧
      (';' ∉ c → ';' ∉ c' → Statement.AllHold o a c c' z →
        m'.parameters.names = m.parameters.names ∧
          Forall₂ (Pin.Requoted (Statement.SameConditions (d.body source) (d'.body source')) c c')
            m.pins.records m'.pins.records ∧
          ((∀ w ∈ o.extraReservedWords, '\x22' ∉ w.toList) → Text.SameShape c c' →
            m'.instances.map Instance.callee = m.instances.map Instance.callee)) := by
  refine ⟨?_, fun hsemi hsemi' hall => ?_⟩
  · have hdiagnostics : ∀ (file : String) (source : Text) (d : ModuleDecl),
        Diagnostic.ofKind .unbalancedEndif (ofDecl file source o d).2 =
          Diagnostic.ofKind .unbalancedEndif (headerContents source o d).diagnostics :=
      fun _ _ _ => Contents.ofKind_foldl ..
    rw [hdiagnostics, hdiagnostics, headerContents_requoted hd hc hc' o]
  · have hcontents := contents_requoted hd ⟨hc, hsemi⟩ ⟨hc', hsemi'⟩ hall
    exact ⟨hcontents.parameters, hcontents.pins, fun ho hshape =>
      callees_requoted hd ⟨hc, hsemi⟩ ⟨hc', hsemi'⟩ hall ho hshape file file'⟩

/-- A message to another module, with a parenthesis and two words. -/
theorem requoted_ofDecl_message :
    let pins : Text := "p".toList
    let a : Text := "input [3:0] p; parameter N = 2; c u (.s(".toList
    let z : Text := "));".toList
    let c : Text := "not (x)".toList
    let c' : Text := "(yet) y".toList
    let m := ofDecl "" (pins ++ (a ++ literal c ++ z)) {} (headed pins (a ++ literal c ++ z))
    let m' := ofDecl "" (pins ++ (a ++ literal c' ++ z)) {} (headed pins (a ++ literal c' ++ z))
    c.Mute ∧ c'.Mute ∧ ';' ∉ c ∧ ';' ∉ c' ∧ Statement.AllHold {} a c c' z ∧ Text.SameShape c c' ∧
      Diagnostic.ofKind .unbalancedEndif m'.2 = Diagnostic.ofKind .unbalancedEndif m.2 ∧
      m'.1.parameters.names = m.1.parameters.names ∧
      Forall₂ (Pin.Requoted (Statement.SameConditions (a ++ literal c ++ z) (a ++ literal c' ++ z))
        c c') m.1.pins.records m'.1.pins.records ∧
      m'.1.instances.map Instance.callee = m.1.instances.map Instance.callee := by
  intro pins a z c c' m m'
  have hc : c.Mute := by decide +kernel
  have hc' : c'.Mute := by decide +kernel
  have hsemi : ';' ∉ c := by decide +kernel
  have hsemi' : ';' ∉ c' := by decide +kernel
  have hall : Statement.AllHold {} a c c' z := by decide +kernel
  have hshape : Text.SameShape c c' := by decide +kernel
  have hd := requoted_headed pins a c c' z
  obtain ⟨hreports, hrest⟩ := requoted_ofDecl hd hc hc' "" "" {}
  obtain ⟨hnames, hpins, hcallees⟩ := hrest hsemi hsemi' hall
  rw [hd.body, hd.body'] at hpins
  exact ⟨hc, hc', hsemi, hsemi', hall, hshape, hreports, hnames, hpins,
    hcallees (fun _ h => nomatch h) hshape⟩

/-! ### Contents that leak -/

/-- What is recorded of a pin list and a body: the callees, the pins, the names of the parameters
and the number of directives that close no region. -/
def reading (o : Options) (pins body : Text) : List String × List Pin × List String × Nat :=
  let m := ofDecl "" (pins ++ body) o (headed pins body)
  (m.1.instances.map Instance.callee, m.1.pins.records, m.1.parameters.names,
    (Diagnostic.ofKind .unbalancedEndif m.2).length)

/-- The literal of `c` is a token of the body, and with the content `c'` something else is
recorded. -/
structure Leaks (o : Options) (pins a c c' z : Text) : Prop where
  literal : LiteralAt a c z
  quotable : c.Quotable
  quotable' : c'.Quotable
  differs : reading o pins (a ++ Text.literal c' ++ z) ≠ reading o pins (a ++ Text.literal c ++ z)

instance (o : Options) (pins a c c' z : Text) : Decidable (Leaks o pins a c c' z) :=
  decidable_of_iff (LiteralAt a c z ∧ c.Quotable ∧ c'.Quotable ∧
      reading o pins (a ++ literal c' ++ z) ≠ reading o pins (a ++ literal c ++ z))
    ⟨fun h => ⟨h.1, h.2.1, h.2.2.1, h.2.2.2⟩, fun h => ⟨h.1, h.2, h.3, h.4⟩⟩

/-- **String literals are not opaque.** A content leaks if it holds a semicolon or a directive, if
it changes the parentheses of a statement, its number of words or its assignment signs, if it makes
a word reserved, if it stands in a size or in a condition, or if an earlier literal has cut the
statement. -/
theorem literals_leak :
    Leaks {} [] "f(".toList "; c u (x)".toList "".toList ");".toList ∧
      Leaks {} [] "x = ".toList "`endif".toList "".toList ";".toList ∧
      Leaks {} [] "c u ".toList "(".toList "".toList ";".toList ∧
      Leaks {} [] "c(".toList "a b c".toList "a".toList ");".toList ∧
      Leaks {} [] "c(".toList "a = b".toList "a + b".toList ");".toList ∧
      Leaks { extraReservedWords := ["c(\x22a"] } [] "c(".toList "a b c".toList "b b c".toList
        ");".toList ∧
      Leaks {} "a".toList "input [".toList "b".toList "c".toList ":0] a;".toList ∧
      Leaks {} "a".toList "`ifdef ".toList "b".toList "c".toList "\ninput a;".toList ∧
      Leaks {} [] "f(\x22a;b\x22, ".toList "parameter A = 1".toList "".toList ");".toList := by
  refine ⟨?_, ?_, ?_, ?_, ?_, ?_, ?_, ?_, ?_⟩ <;> decide +kernel

end ModuleInfo

end DesignAtlas
