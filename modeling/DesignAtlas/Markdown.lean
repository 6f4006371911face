import DesignAtlas.Document

/-! # Markdown

The document as one Markdown text: for each module a heading, a table of its pins and, when there
are any, a table of its parameters. A bar inside a cell follows a backslash. -/

namespace DesignAtlas.Markdown

/-- A character of a cell. -/
def cellChar (c : Char) : List Char := if c = '|' then ['\x5c', '|'] else [c]

/-- The text of a cell. -/
def cell (s : String) : String := String.ofList (s.toList.flatMap cellChar)

/-- A line of a table, by the texts of its cells. -/
def tableLine (cells : List String) : String := "| " ++ " | ".intercalate cells ++ " |\n"

/-- The line of a pin. -/
def pinLine (p : PinRow) : String :=
  tableLine [p.direction, cell p.dataType, cell p.size, cell p.name, cell p.conditionals]

/-- The line of a parameter. -/
def parameterLine (p : ParameterRow) : String :=
  tableLine [cell p.sizeOrType, cell p.name, cell p.defaultValue]

/-- The table of parameters, left out when there are none. -/
def parameterTable (ps : List ParameterRow) : String :=
  if ps.isEmpty then ""
  else
    "## parameter\n\n| size | name | default |\n| --- | --- | --- |\n" ++
      String.join (ps.map parameterLine) ++ "\n"

/-- A section. -/
def sectionText (s : Section) : String :=
  "# " ++ cell s.name ++ "\n\n## arguments\n\n" ++
    "| direction | type | size | name | conditionals |\n" ++
    "| --- | --- | --- | --- | --- |\n" ++ String.join (s.pins.map pinLine) ++ "\n" ++
    parameterTable s.parameters

/-- The document. -/
def render (doc : Document) : String := String.join (doc.sections.map sectionText)

end DesignAtlas.Markdown
