import DesignAtlas.Graph
import DesignAtlas.Hierarchy
import DesignAtlas.Path

/-! # Documents

The document of a design, whatever form it is shown in: one section for each module, in the order of
the design, and a menu that follows the hierarchy of the top module. Each source file has a page,
and links lead to the section of a module on the page of its file. -/

namespace DesignAtlas

/-- The page of a source file: its file name with `.html` behind it. -/
def pageName (sourceFile : String) : String :=
  (Path.fileName? sourceFile).getD sourceFile ++ ".html"

/-- A link to the section of a module. -/
structure Link where
  name : String
  sourceFile : String
  page : String
  deriving DecidableEq, Repr

namespace Link

/-- The link to a module. -/
def ofModule (m : ModuleInfo) : Link := ⟨m.name, m.sourceFile, pageName m.sourceFile⟩

/-- The target of the link: its page and, behind a hash, the module. -/
def href (l : Link) : String := l.page ++ "#" ++ l.name

end Link

/-- A pin as a row of texts; what is not declared is empty. -/
structure PinRow where
  direction : String
  dataType : String
  size : String
  name : String
  conditionals : String
  deriving DecidableEq, Repr

/-- The row of a pin. -/
def PinRow.ofPin (p : Pin) : PinRow where
  direction := (p.direction.map Direction.word).getD ""
  dataType := p.dataType.getD ""
  size := p.size.getD ""
  name := p.name
  conditionals := ", ".intercalate p.conditionals

/-- A parameter as a row of texts. -/
structure ParameterRow where
  sizeOrType : String
  name : String
  defaultValue : String
  deriving DecidableEq, Repr

/-- The row of a parameter. -/
def ParameterRow.ofParameter (p : Parameter) : ParameterRow :=
  ⟨p.sizeOrType.getD "", p.name, p.defaultValue⟩

/-- The section of a module. -/
structure Section where
  name : String
  sourceFile : String
  page : String
  /-- The modules that have an instance of this one. -/
  callers : List Link
  /-- The known modules of which this one has an instance. -/
  callees : List Link
  /-- The names of the other modules of which it has an instance. -/
  unresolved : List String
  pins : List PinRow
  parameters : List ParameterRow
  body : String
  deriving DecidableEq, Repr

namespace Section

/-- The section of a module of a design. -/
def ofModule (d : Design) (m : ModuleInfo) : Section where
  name := m.name
  sourceFile := m.sourceFile
  page := pageName m.sourceFile
  callers := (d.callersOf m.name).map Link.ofModule
  callees := m.calleeNames.filterMap fun n => (d.find? n).map Link.ofModule
  unresolved := m.calleeNames.filter fun n => !d.contains n
  pins := m.pins.records.map PinRow.ofPin
  parameters := m.parameters.records.map ParameterRow.ofParameter
  body := m.body

/-- The node of a neighbour, which links to its section. -/
def neighbour (l : Link) : GraphNode := ⟨l.name, l.name, .plaintext, some l.href⟩

/-- The flow graph of a section: the modules that use it, the module itself as a box, and the known
modules that it uses. -/
def flowGraph (s : Section) : Graph :=
  let start := Graph.empty.addNode ⟨s.name, s.name, .box, none⟩
  let left := s.callers.foldl
    (fun g l => (g.addNode (neighbour l)).addEdge ⟨l.name, s.name⟩) start
  s.callees.foldl (fun g l => (g.addNode (neighbour l)).addEdge ⟨s.name, l.name⟩) left

end Section

/-- An entry of the menu. -/
structure MenuEntry where
  depth : Nat
  name : String
  /-- The page of the module, empty when the module is unknown. -/
  page : String
  cycle : Bool
  deriving DecidableEq, Repr

/-- The document of a design. -/
structure Document where
  top : String
  sections : List Section
  menu : List MenuEntry
  deriving DecidableEq, Repr

namespace Document

/-- The menu entry of a node of the hierarchy. -/
def entryOf (d : Design) (depth : Nat) (t : Hierarchy) : MenuEntry where
  depth := depth
  name := t.name
  page := ((d.find? t.name).map fun m => pageName m.sourceFile).getD ""
  cycle := t.cycle

/-- The document of a design and a hierarchy in it. -/
def ofDesign (d : Design) (t : Hierarchy) : Document where
  top := t.name
  sections := d.records.map (Section.ofModule d)
  menu := t.walk.map fun e => entryOf d e.1 e.2

/-- The section of a module. -/
def section? (doc : Document) (name : String) : Option Section :=
  doc.sections.find? fun s => s.name == name

/-- The sections of the modules that a source file defines. -/
def sectionsOf (doc : Document) (sourceFile : String) : List Section :=
  doc.sections.filter fun s => s.sourceFile == sourceFile

/-- The page of the top module. -/
def topPage? (doc : Document) : Option String := (doc.section? doc.top).map Section.page

end Document

end DesignAtlas
