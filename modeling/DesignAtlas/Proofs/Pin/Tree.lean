import DesignAtlas.Proofs.Condition.Depth
import DesignAtlas.Proofs.Pin.Line
import DesignAtlas.Proofs.Roster.Distinct

/-! # Pin lists with conditional regions

A pin tree is a pin list without the freedom of layout: forms and conditional regions, nested to any
depth and printed line by line. Reading the lines of a tree opens and closes its regions and leaves
the stack as it was (`PinTree.stack_foldl_run`). By induction on the tree it therefore declares the
pins of the tree in order, each under the conditions of the regions around it and with what it
inherits from the forms before it (`PinTree.isRead`). So a printed tree is read back without
diagnostics (`PinTree.pins_of_print`). -/

namespace DesignAtlas

/-! ### Trees -/

/-- The directive whose condition holds behind an `else`. -/
def Opening.alternative (policy : ElsePolicy) (k : Opening) : Opening :=
  match policy with
  | .keep => k
  | .negate => k.flip

/-- Forms and conditional regions in order. A region has an alternative or none. -/
inductive PinTree where
  | done
  | pin (d : PinForm) (rest : PinTree)
  | region (k : Opening) (symbol : Word) (inner rest : PinTree)
  | divided (k : Opening) (symbol : Word) (inner alternative rest : PinTree)

namespace PinTree

/-- The lines of the tree. -/
def lines : PinTree → List PinLine
  | done => []
  | pin d rest => .declaration d :: rest.lines
  | region k symbol inner rest => .opening k symbol :: (inner.lines ++ .ending :: rest.lines)
  | divided k symbol inner alternative rest =>
    .opening k symbol ::
      (inner.lines ++ .alternative :: (alternative.lines ++ .ending :: rest.lines))

/-- The tree as it is written. -/
def print (t : PinTree) : Text := PinLine.printAll t.lines

/-- The forms of the tree in order, each with the conditions of the regions around it, outermost
first; `cs` are those around the tree. -/
def entries (policy : ElsePolicy) (cs : List String) : PinTree → List (PinForm × List String)
  | done => []
  | pin d rest => (d, cs) :: entries policy cs rest
  | region k symbol inner rest =>
    entries policy (cs ++ [k.condition symbol]) inner ++ entries policy cs rest
  | divided k symbol inner alternative rest =>
    entries policy (cs ++ [k.condition symbol]) inner ++
      (entries policy (cs ++ [(k.alternative policy).condition symbol]) alternative ++
        entries policy cs rest)

/-- The forms of the tree in order. -/
def forms : PinTree → List PinForm
  | done => []
  | pin d rest => d :: rest.forms
  | region _ _ inner rest => inner.forms ++ rest.forms
  | divided _ _ inner alternative rest => inner.forms ++ (alternative.forms ++ rest.forms)

/-- The names of the tree in order. -/
def names (t : PinTree) : List String := t.forms.map fun d => d.label.name

end PinTree

namespace PinForm

/-- Whether the form says more than the name. -/
def isQualified (d : PinForm) : Bool :=
  d.direction.isSome || d.netType.isSome || d.signing.isSome || !d.ranges.isEmpty

/-- The pin of the form: direction, type and size are its own, or those of the nearest form before it
that says more than the name when it does not. The forms before it stand in `earlier`, the nearest
first. -/
def pinBehind (earlier : List PinForm) (cs : List String) (d : PinForm) : Pin :=
  match (d :: earlier).find? isQualified with
  | some e => ⟨d.label.name, e.direction, typeText e.typeWords, e.size, cs⟩
  | none => ⟨d.label.name, none, none, none, cs⟩

/-- The pins of forms in order, each with its conditions. -/
def pinsBehind (earlier : List PinForm) : List (PinForm × List String) → List Pin
  | [] => []
  | (d, cs) :: es => d.pinBehind earlier cs :: pinsBehind (d :: earlier) es

theorem isQualified_decl (d : PinForm) : d.decl.isQualified = d.isQualified := by
  have htype : (typeText d.typeWords).isSome = (d.netType.isSome || d.signing.isSome) := by
    unfold typeText typeWords
    cases d.netType <;> cases d.signing <;> simp
  have hsize : d.size.isSome = !d.ranges.isEmpty := by
    unfold size
    split_ifs with h <;> simp [h]
  unfold PinDecl.isQualified isQualified decl
  simp only [htype, hsize, Bool.or_assoc]

theorem pinsBehind_append (earlier : List PinForm) : ∀ xs ys : List (PinForm × List String),
    pinsBehind earlier (xs ++ ys) =
      pinsBehind earlier xs ++ pinsBehind ((xs.map Prod.fst).reverse ++ earlier) ys
  | [], _ => rfl
  | (d, cs) :: xs, ys => by
    simp only [List.cons_append, pinsBehind, pinsBehind_append (d :: earlier) xs ys,
      List.map_cons, List.reverse_cons, List.append_assoc, List.nil_append]

theorem names_pinsBehind : ∀ (earlier : List PinForm) (es : List (PinForm × List String)),
    (pinsBehind earlier es).map Pin.name = es.map fun e => e.1.label.name
  | _, [] => rfl
  | earlier, (d, cs) :: es => by
    have hname : (d.pinBehind earlier cs).name = d.label.name := by
      unfold pinBehind
      split <;> rfl
    rw [pinsBehind, List.map_cons, List.map_cons, hname, names_pinsBehind]

end PinForm

/-! ### Reading a tree -/

namespace PinTree

/-- The pins that the tree declares. -/
def pins (policy : ElsePolicy) (t : PinTree) : List Pin :=
  PinForm.pinsBehind [] (t.entries policy [])

/-- The pattern gives a form behind the forms `earlier` its pin. -/
def Inherits (earlier : List PinForm) (pattern : Option Pin) : Prop :=
  ∀ (d : PinForm) (cs : List String), PinList.pinOf pattern cs d.decl = d.pinBehind earlier cs

theorem inherits_nil : Inherits [] none := by
  intro d cs
  unfold PinList.pinOf PinForm.pinBehind
  rw [d.isQualified_decl]
  cases hd : d.isQualified <;> simp [hd] <;> rfl

/-- **A form becomes the pattern** if it says more than the name. -/
theorem Inherits.stepDecl {earlier : List PinForm} {s : PinList} (h : Inherits earlier s.pattern)
    (d : PinForm) : Inherits (d :: earlier) (s.stepDecl d.decl).pattern := by
  intro e cs
  cases hd : d.isQualified with
  | false =>
    have hpattern : (s.stepDecl d.decl).pattern = s.pattern := by
      simp [PinList.stepDecl, d.isQualified_decl, hd]
    rw [hpattern, h e cs]
    unfold PinForm.pinBehind
    cases he : e.isQualified <;> simp [he, hd]
  | true =>
    have hpattern : (s.stepDecl d.decl).pattern = some (d.decl.pin s.stack.snapshot) := by
      simp [PinList.stepDecl, PinList.pinOf, d.isQualified_decl, hd]
    rw [hpattern]
    unfold PinList.pinOf PinForm.pinBehind
    rw [e.isQualified_decl]
    cases he : e.isQualified <;> simp [he, hd] <;> rfl

/-- What has been read between two states: the entries `es`, behind the forms `earlier`. -/
structure Reads (earlier : List PinForm) (es : List (PinForm × List String)) (s s' : PinList) :
    Prop where
  pins : s'.pins = s.pins.putAll (PinForm.pinsBehind earlier es)
  diagnostics : s'.diagnostics = s.diagnostics
  pattern : Inherits ((es.map Prod.fst).reverse ++ earlier) s'.pattern

variable {earlier : List PinForm} {es es' : List (PinForm × List String)} {s s' s'' : PinList}
  {module : String}

theorem Reads.trans (h : Reads earlier es s s')
    (h' : Reads ((es.map Prod.fst).reverse ++ earlier) es' s' s'') :
    Reads earlier (es ++ es') s s'' := by
  refine ⟨?_, h'.diagnostics.trans h.diagnostics, ?_⟩
  · rw [h'.pins, h.pins, PinForm.pinsBehind_append]
    exact List.foldl_append.symm
  · have := h'.pattern
    rwa [← List.append_assoc, ← List.reverse_append, ← List.map_append] at this

theorem reads_declaration (h : Inherits earlier s.pattern) (d : PinForm) :
    Reads earlier [(d, s.stack.snapshot)] s (s.stepDecl d.decl) := by
  refine ⟨?_, rfl, h.stepDecl d⟩
  rw [PinForm.pinsBehind, ← h d s.stack.snapshot]
  rfl

/-- A directive that is not rejected reads nothing. -/
theorem reads_directive (module : String) (h : Inherits earlier s.pattern) {d : Directive}
    (hd : s.stack.rejects d = false) : Reads earlier [] s (s.stepDirective module d) :=
  ⟨rfl, by simp [PinList.stepDirective, hd], h⟩

/-! ### The stack -/

theorem advance_opening (stack : ConditionStack) (k : Opening) (argument : String) :
    stack.advance ⟨k.kind.word, argument⟩ = stack.push ⟨k.kind, argument⟩ := by
  cases k <;> rfl

theorem advance_else (stack : ConditionStack) (k : Opening) (argument : String) :
    (stack.push ⟨k.kind, argument⟩).advance ⟨"else", ""⟩ =
      stack.push ⟨(k.alternative stack.policy).kind, argument⟩ := by
  obtain ⟨policy, regions⟩ := stack
  cases policy <;> cases k <;> rfl

theorem advance_ending (stack : ConditionStack) (c : Condition) :
    (stack.push c).advance ⟨"endif", ""⟩ = stack := rfl

theorem policy_push (stack : ConditionStack) (c : Condition) :
    (stack.push c).policy = stack.policy := rfl

theorem rejects_opening (stack : ConditionStack) (k : Opening) (argument : String) :
    stack.rejects ⟨k.kind.word, argument⟩ = false := by
  cases k <;> rfl

theorem rejects_else (stack : ConditionStack) : stack.rejects ⟨"else", ""⟩ = false := rfl

theorem rejects_ending (stack : ConditionStack) (c : Condition) :
    (stack.push c).rejects ⟨"endif", ""⟩ = false := rfl

theorem stack_stepDirective (module : String) (s : PinList) (d : Directive) :
    (s.stepDirective module d).stack = s.stack.advance d := rfl

theorem snapshot_push (stack : ConditionStack) (k : Opening) (symbol : Word) :
    (stack.push ⟨k.kind, symbol.name⟩).snapshot = stack.snapshot ++ [k.condition symbol] := by
  have hne : symbol.name ≠ "" := by
    obtain ⟨c, t, h, -⟩ := symbol.exists_cons
    intro hname
    have := congrArg String.toList hname
    rw [Word.name, String.toList_ofList, h] at this
    cases this
  have hdisplay : Condition.display ⟨k.kind, symbol.name⟩ = k.condition symbol := by
    unfold Condition.display Directive.display Opening.condition
    simp [hne]
  rw [ConditionStack.snapshot_push, hdisplay]

/-! ### Whole trees -/

/-- **The lines of a tree** leave the stack as it was. -/
theorem stack_foldl_run (module : String) : ∀ (t : PinTree) (s : PinList),
    (t.lines.foldl (PinLine.run module) s).stack = s.stack := by
  intro t
  induction t with
  | done => exact fun _ => rfl
  | pin d rest ih => exact fun s => ih (s.stepDecl d.decl)
  | region k symbol inner rest ihinner ihrest =>
    intro s
    simp only [lines, List.foldl_cons, List.foldl_append, PinLine.run, ihrest, ihinner,
      stack_stepDirective]
    rw [advance_opening, advance_ending]
  | divided k symbol inner alternative rest ihinner ihalternative ihrest =>
    intro s
    simp only [lines, List.foldl_cons, List.foldl_append, PinLine.run, ihrest, ihalternative,
      ihinner, stack_stepDirective]
    rw [advance_opening, advance_else, advance_ending]

/-- Reading the lines of the tree declares the pins of the tree. -/
def IsRead (module : String) (t : PinTree) : Prop :=
  ∀ {earlier : List PinForm} {s : PinList}, Inherits earlier s.pattern →
    Reads earlier (t.entries s.stack.policy s.stack.snapshot) s
      (t.lines.foldl (PinLine.run module) s)

/-- A tree behind a directive stands under the conditions that the directive leaves. -/
theorem IsRead.behind {t : PinTree} (ht : t.IsRead module) (h : Inherits earlier s.pattern)
    {d : Directive} (hd : s.stack.rejects d = false) :
    Reads earlier (t.entries s.stack.policy (s.stack.advance d).snapshot) s
      (t.lines.foldl (PinLine.run module) (s.stepDirective module d)) := by
  have hdirective := reads_directive module h hd
  have htree := hdirective.trans (ht hdirective.pattern)
  rwa [stack_stepDirective, ConditionStack.policy_advance] at htree

/-- **The lines of a tree** declare the pins of the tree. -/
theorem isRead (module : String) (t : PinTree) : t.IsRead module := by
  induction t with
  | done => exact fun h => ⟨rfl, rfl, h⟩
  | pin d rest ih =>
    intro earlier s h
    have hpin := reads_declaration h d
    exact hpin.trans (ih hpin.pattern)
  | region k symbol inner rest ihinner ihrest =>
    intro earlier s h
    have hinner := ihinner.behind h (rejects_opening s.stack k symbol.name)
    -- behind the inner tree its region is the innermost again, so the `endif` closes that one
    have hrest := hinner.trans (ihrest.behind (d := ⟨"endif", ""⟩) hinner.pattern (by
      rw [stack_foldl_run, stack_stepDirective, advance_opening, rejects_ending]))
    simp only [stack_foldl_run, stack_stepDirective, advance_opening, advance_ending,
      snapshot_push, policy_push] at hrest
    simpa only [lines, entries, List.foldl_cons, List.foldl_append, PinLine.run] using hrest
  | divided k symbol inner alternative rest ihinner ihalternative ihrest =>
    intro earlier s h
    have hinner := ihinner.behind h (rejects_opening s.stack k symbol.name)
    -- an `else` is never rejected, and the region it divides is still open behind it
    have halternative := hinner.trans (ihalternative.behind (d := ⟨"else", ""⟩) hinner.pattern
      (rejects_else _))
    have hrest := halternative.trans (ihrest.behind (d := ⟨"endif", ""⟩) halternative.pattern (by
      rw [stack_foldl_run, stack_stepDirective, stack_foldl_run, stack_stepDirective,
        advance_opening, advance_else, rejects_ending]))
    simp only [stack_foldl_run, stack_stepDirective, advance_opening, advance_else,
      advance_ending, snapshot_push, policy_push, List.append_assoc] at hrest
    simpa only [lines, entries, List.foldl_cons, List.foldl_append, PinLine.run] using hrest

theorem forms_entries (policy : ElsePolicy) (t : PinTree) : ∀ cs : List String,
    (t.entries policy cs).map Prod.fst = t.forms := by
  induction t with
  | done => exact fun _ => rfl
  | pin d rest ih => exact fun cs => congrArg (d :: ·) (ih cs)
  | region k symbol inner rest ihinner ihrest =>
    intro cs
    rw [entries, List.map_append, ihinner, ihrest, forms]
  | divided k symbol inner alternative rest ihinner ihalternative ihrest =>
    intro cs
    rw [entries, List.map_append, List.map_append, ihinner, ihalternative, ihrest, forms]

theorem names_pins (policy : ElsePolicy) (t : PinTree) :
    (t.pins policy).map Pin.name = t.names := by
  rw [pins, PinForm.names_pinsBehind, names, ← t.forms_entries policy [], List.map_map]
  rfl

/-- **A printed tree is read back** without diagnostics, in the printed order, for every module name
and all options. -/
theorem pins_of_print (t : PinTree) (h : t.names.Nodup) (module : String) (o : Options) :
    (PinList.ofText module o t.print).diagnostics = [] ∧
      (PinList.ofText module o t.print).pins = ⟨t.pins o.elsePolicy⟩ := by
  -- nothing has been read yet, so no form has left a pattern and every name is new
  let start : PinList := ⟨ConditionStack.empty o.elsePolicy, none, Roster.empty, []⟩
  have hlines : PinList.ofText module o t.print = t.lines.foldl (PinLine.run module) start :=
    PinLine.foldl_step module t.lines [] start
  have hread := t.isRead module (s := start) inherits_nil
  have hnew : ((Roster.empty : Roster Pin).names ++ (t.pins o.elsePolicy).map Pin.name).Nodup := by
    rw [names_pins]
    exact h
  rw [hlines]
  exact ⟨hread.diagnostics, hread.pins.trans (Roster.putAll_eq_append _ _ hnew)⟩

/-- A divided region with a region in its first branch. The second branch begins with a name, which
takes type and ranges from inside the inner region. -/
theorem pins_of_print_nested :
    let bus : PinForm :=
      ⟨some .input, some ⟨⟨"wire".toList, by decide⟩, by decide⟩, some .signed,
        [⟨"[W - 1:0]".toList, by decide +kernel⟩, ⟨"[a[0]:0]".toList, by decide +kernel⟩],
        ⟨"bus".toList, by decide⟩, by decide +kernel, by decide, by decide, by decide⟩
    let a : PinForm :=
      ⟨none, none, none, [], ⟨"a".toList, by decide⟩, by simp, by decide, by decide, by decide⟩
    let b : PinForm :=
      ⟨none, none, none, [], ⟨"b".toList, by decide⟩, by simp, by decide, by decide, by decide⟩
    let x : Word := ⟨"X".toList, by decide⟩
    let y : Word := ⟨"Y".toList, by decide⟩
    let tree : PinTree := .pin a (.divided .ifdef x (.region .ifndef y (.pin bus .done) .done)
      (.pin b .done) .done)
    let o : Options := { elsePolicy := .negate }
    let size : String := "[W-1:0][a[0]:0]"
    tree.print = ("a,\n\x60ifdef X\n\x60ifndef Y\n" ++
      "input wire signed [W - 1:0] [a[0]:0] bus,\n\x60endif\n\x60else\nb,\n\x60endif\n").toList ∧
    tree.names.Nodup ∧ (PinList.ofText "m" o tree.print).diagnostics = [] ∧
    (PinList.ofText "m" o tree.print).pins = ⟨[Pin.bare "a" [],
      ⟨"bus", some .input, some "wire signed", some size, ["\x60ifdef X", "\x60ifndef Y"]⟩,
      ⟨"b", some .input, some "wire signed", some size, ["\x60ifndef X"]⟩]⟩ := by
  intro bus a b x y tree o size
  have h : tree.names.Nodup := by decide +kernel
  obtain ⟨hdiagnostics, hpins⟩ := pins_of_print tree h "m" o
  refine ⟨by decide +kernel, h, hdiagnostics, hpins.trans ?_⟩
  decide +kernel

end PinTree

end DesignAtlas
