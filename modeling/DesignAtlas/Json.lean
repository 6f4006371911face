import DesignAtlas.Hierarchy

/-! # JSON

Values of the data format, their compact and their indented text, and the values of hierarchies and
designs. An indented value has two spaces for each level, and every member and element stands on a
line of its own. -/

namespace DesignAtlas

mutual

/-- A value. -/
inductive Json where
  | null
  | bool (b : Bool)
  | string (s : String)
  | array (items : List Json)
  | object (members : List JsonMember)

/-- A member of an object. -/
inductive JsonMember where
  | mk (key : String) (value : Json)

end

namespace Json

/-! ### Texts -/

/-- A hexadecimal digit. -/
def hexDigit (n : Nat) : Char := if n < 10 then Char.ofNat (48 + n) else Char.ofNat (87 + n)

/-- A character inside quotes. Quotes, backslashes and control characters are escaped. -/
def quoteChar (c : Char) : List Char :=
  if c = '\x22' ∨ c = '\x5c' then ['\x5c', c]
  else if c.toNat = 8 then ['\x5c', 'b']
  else if c.toNat = 12 then ['\x5c', 'f']
  else if c = '\n' then ['\x5c', 'n']
  else if c = '\r' then ['\x5c', 'r']
  else if c = '\t' then ['\x5c', 't']
  else if c.toNat < 32 then
    ['\x5c', 'u', '0', '0', hexDigit (c.toNat / 16), hexDigit (c.toNat % 16)]
  else [c]

/-- A text in quotes. -/
def quote (s : String) : String := "\"" ++ String.ofList (s.toList.flatMap quoteChar) ++ "\""

mutual

/-- The value without blanks. -/
def compact : Json → String
  | .null => "null"
  | .bool b => if b then "true" else "false"
  | .string s => quote s
  | .array items => "[" ++ ",".intercalate (compactItems items) ++ "]"
  | .object members => "\x7b" ++ ",".intercalate (compactMembers members) ++ "\x7d"

/-- The elements of an array, one by one. -/
def compactItems : List Json → List String
  | [] => []
  | j :: js => compact j :: compactItems js

/-- The members of an object, one by one. -/
def compactMembers : List JsonMember → List String
  | [] => []
  | .mk k v :: ms => (quote k ++ ":" ++ compact v) :: compactMembers ms

end

/-- The spaces before a line at some level. -/
def indent (level : Nat) : String := String.join (List.replicate level "  ")

/-- Lines between brackets; nothing stands between them when there are no lines. -/
def block (level : Nat) (opening closing : String) (lines : List String) : String :=
  if lines.isEmpty then opening ++ closing
  else
    opening ++ "\n" ++ ",\n".intercalate (lines.map fun l => indent (level + 1) ++ l) ++ "\n" ++
      indent level ++ closing

mutual

/-- The value with indentation, standing at some level. -/
def pretty (level : Nat) : Json → String
  | .null => "null"
  | .bool b => if b then "true" else "false"
  | .string s => quote s
  | .array items => block level "[" "]" (prettyItems (level + 1) items)
  | .object members => block level "\x7b" "\x7d" (prettyMembers (level + 1) members)

/-- The elements of an array, one by one. -/
def prettyItems (level : Nat) : List Json → List String
  | [] => []
  | j :: js => pretty level j :: prettyItems level js

/-- The members of an object, one by one. -/
def prettyMembers (level : Nat) : List JsonMember → List String
  | [] => []
  | .mk k v :: ms => (quote k ++ ": " ++ pretty level v) :: prettyMembers level ms

end

/-! ### Values of the library -/

/-- A text or null. -/
def ofOption : Option String → Json
  | some s => .string s
  | none => .null

/-- Some texts. -/
def ofStrings (ss : List String) : Json := .array (ss.map .string)

/-- The records of a roster as an object, each under its name. -/
def ofRoster {α : Type} [Named α] (f : α → Json) (r : Roster α) : Json :=
  .object (r.records.map fun x => .mk (Named.name x) (f x))

/-- A pin. -/
def ofPin (p : Pin) : Json :=
  .object [.mk "name" (.string p.name), .mk "direction" (ofOption (p.direction.map Direction.word)),
    .mk "data_type" (ofOption p.dataType), .mk "size" (ofOption p.size),
    .mk "active_conditionals" (ofStrings p.conditionals)]

/-- A parameter. -/
def ofParameter (p : Parameter) : Json :=
  .object [.mk "name" (.string p.name), .mk "size_or_type" (ofOption p.sizeOrType),
    .mk "default_expression" (.string p.defaultValue)]

/-- An instance. -/
def ofInstance (i : Instance) : Json :=
  .object [.mk "callee_name" (.string i.callee), .mk "instance_name" (ofOption i.instanceName),
    .mk "raw_statement_text" (.string i.statement),
    .mk "active_conditionals" (ofStrings i.conditionals)]

/-- A module. -/
def ofModule (m : ModuleInfo) : Json :=
  .object [.mk "name" (.string m.name), .mk "source_file" (.string m.sourceFile),
    .mk "ports" (ofRoster ofPin m.pins), .mk "parameters" (ofRoster ofParameter m.parameters),
    .mk "body_text" (.string m.body), .mk "instances" (.array (m.instances.map ofInstance))]

/-- A design: its modules, each under its name. -/
def ofDesign (d : Design) : Json := ofRoster ofModule d

mutual

/-- A hierarchy; the mark of a cycle is left out where there is none. -/
def ofHierarchy : Hierarchy → Json
  | .node name cycle children =>
    .object (.mk "name" (.string name) :: .mk "children" (.array (ofHierarchies children)) ::
      if cycle then [.mk "cycle" (.bool true)] else [])

/-- Some hierarchies. -/
def ofHierarchies : List Hierarchy → List Json
  | [] => []
  | t :: ts => ofHierarchy t :: ofHierarchies ts

end

end Json

end DesignAtlas
