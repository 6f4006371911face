import DesignAtlas.Comment
import DesignAtlas.Instance
import DesignAtlas.ModuleDecl
import DesignAtlas.Parameter.Segment
import DesignAtlas.Pin.List

/-! # Modules

What is known about a module: its pins, its parameters, its body and the instances in it. The
statements of the body are taken in order. A statement declares parameters, states pins of the
header, or is an instance, tried in this order; pins are stated only outside tasks and functions. A
statement with the parameter keyword of which some part declares nothing is reported once and is
still tried as the others. -/

namespace DesignAtlas

/-- What is known about a module. -/
structure ModuleInfo where
  name : String
  sourceFile : String
  pins : Roster Pin
  /-- Parameters of the header's block, then those of the body. -/
  parameters : Roster Parameter
  body : String
  instances : List Instance
  deriving DecidableEq, Repr

instance : Named ModuleInfo := ⟨ModuleInfo.name⟩

namespace ModuleInfo

/-- The names of the instantiated modules, each at its first occurrence. -/
def calleeNames (m : ModuleInfo) : List String :=
  m.instances.foldl
    (fun names i => if names.contains i.callee then names else names ++ [i.callee]) []

/-- Whether the module has an instance of `callee`. -/
def instantiates (m : ModuleInfo) (callee : String) : Bool :=
  m.instances.any fun i => i.callee == callee

/-! ### The statements of the body -/

/-- What the statements read so far have given. -/
structure Contents where
  pins : Roster Pin
  parameters : Roster Parameter
  instances : List Instance
  diagnostics : List Diagnostic
  deriving DecidableEq, Repr

namespace Contents

/-- Adds parameters; later ones replace earlier ones of the same name. -/
def addParameters (c : Contents) (ps : List Parameter) : Contents :=
  { c with parameters := c.parameters.putAll ps }

/-- Adds a diagnostic. -/
def report (c : Contents) (d : Diagnostic) : Contents :=
  { c with diagnostics := c.diagnostics ++ [d] }

/-- Adds the instance that a statement looks like. -/
def addInstance (o : Options) (s : Statement) (c : Contents) : Contents :=
  match Instance.ofStatement? o s with
  | some i => { c with instances := c.instances ++ [i] }
  | none => c

/-- Takes a statement that declares no parameters: it states pins or is an instance. -/
def addOther (o : Options) (s : Statement) (c : Contents) : Contents :=
  if s.inSubprogram then c.addInstance o s
  else
    match PinDecl.refine? c.pins s.text s.conditionals with
    | some pins => { c with pins := pins }
    | none => c.addInstance o s

/-- Takes one more statement of the module. -/
def addStatement (module : String) (o : Options) (c : Contents) (s : Statement) : Contents :=
  match Parameter.ofStatement? o s.text with
  | none => c.addOther o s
  | some d =>
    let c := c.addParameters d.parameters
    if d.rejected.isEmpty then c
    else (c.report ⟨.unrecognizedParameter, module, String.ofList s.text⟩).addOther o s

end Contents

/-! ### Modules of a source -/

/-- What the header of a declaration gives, together with the diagnostics of the whole body's
directives. -/
def headerContents (source : Text) (o : Options) (d : ModuleDecl) : Contents :=
  let pins := PinList.ofText d.name o (d.pinList source)
  let block : Parameter.Declared :=
    match d.parameterBlock? source with
    | some t => Parameter.ofBlock o t
    | none => ⟨[], []⟩
  { pins := pins.pins
    parameters := Roster.empty.putAll block.parameters
    instances := []
    diagnostics := pins.diagnostics ++ Parameter.blockDiagnostics d.name block ++
      Statement.bodyDiagnostics d.name o (d.body source) }

/-- What a declaration in a source gives. -/
def contents (source : Text) (o : Options) (d : ModuleDecl) : Contents :=
  (Statement.ofBody o (d.body source)).foldl (Contents.addStatement d.name o)
    (headerContents source o d)

/-- The module of a declaration in a source, and its diagnostics. -/
def ofDecl (sourceFile : String) (source : Text) (o : Options) (d : ModuleDecl) :
    ModuleInfo × List Diagnostic :=
  let c := contents source o d
  (⟨d.name, sourceFile, c.pins, c.parameters, String.ofList (d.body source), c.instances⟩,
    c.diagnostics)

end ModuleInfo

end DesignAtlas
