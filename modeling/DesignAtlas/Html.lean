import DesignAtlas.Document

/-! # HTML pages

The document as a site: an index of two frames, a menu, and one page for each source file. All text
that comes from the sources is escaped. Flow graphs are drawn by a renderer; without one, or when it
fails, their DOT text is shown. -/

namespace DesignAtlas.Html

/-! ### Escaping -/

/-- A character of a text inside markup. -/
def escapeChar (c : Char) : List Char :=
  if c = '&' then "&amp;".toList
  else if c = '<' then "&lt;".toList
  else if c = '>' then "&gt;".toList
  else if c = '\x22' then "&quot;".toList
  else if c = '\x27' then "&#39;".toList
  else [c]

/-- A text inside markup. -/
def escape (s : String) : String := String.ofList (s.toList.flatMap escapeChar)

/-! ### Index and menu -/

/-- The index: the menu on the left and the page of the top module on the right. -/
def index (doc : Document) : String :=
  "<html>\n  <frameset cols=\"200, *\">\n    <frame src=\"menu.html\" name=\"menu\">\n" ++
    "    <frame src=\"" ++ escape (doc.topPage?.getD "") ++ "\" name=\"main\">\n" ++
    "  </frameset>\n</html>\n"

/-- The line of a menu entry. -/
def menuLine (e : MenuEntry) : String :=
  String.join (List.replicate e.depth "|&nbsp;") ++ "<a target='main' href='" ++ escape e.page ++
    "#" ++ escape e.name ++ "'>" ++ escape e.name ++ "</a>" ++
    (if e.cycle then " (cycle)" else "") ++ "<br/>\n"

/-- The menu. -/
def menu (doc : Document) : String := String.join (doc.menu.map menuLine)

/-! ### Sections -/

/-- The image that a renderer draws, if it draws one and the image is text. -/
def drawing? (renderer : Option Renderer) (g : Graph) : Option String :=
  (renderer.bind fun draw => draw g).bind String.fromUTF8?

/-- The flow graph of a section. -/
def flow (renderer : Option Renderer) (s : Section) : String :=
  match drawing? renderer s.flowGraph with
  | some image => image
  | none => "<pre>" ++ escape s.flowGraph.toDot ++ "</pre>"

/-- A row of a table, by the contents of its cells. -/
def row (cells : List String) : String :=
  "<tr>" ++ String.join (cells.map fun c => "<td>" ++ c ++ "</td>") ++ "</tr>\n"

/-- The row of a pin. -/
def pinRow (p : PinRow) : String :=
  row [p.direction, escape p.dataType, escape p.size, escape p.name, escape p.conditionals]

/-- The row of a parameter. -/
def parameterRow (p : ParameterRow) : String :=
  row [escape p.sizeOrType, escape p.name, escape p.defaultValue]

/-- The table of pins. -/
def pinTable (pins : List PinRow) : String :=
  "<h3>arguments</h3>\n<table>\n<tr><th>direction</th><th>type</th><th>size</th><th>name</th>" ++
    "<th>conditionals</th></tr>\n" ++ String.join (pins.map pinRow) ++ "</table>\n<br>\n"

/-- The table of parameters, left out when there are none. -/
def parameterTable (ps : List ParameterRow) : String :=
  if ps.isEmpty then ""
  else
    "<h3>parameter</h3>\n<table>\n<tr><th>size</th><th>name</th><th>default</th></tr>\n" ++
      String.join (ps.map parameterRow) ++ "</table>\n<br>\n"

/-- The list of unknown modules, left out when there are none. -/
def unresolvedList (names : List String) : String :=
  if names.isEmpty then ""
  else
    "<h3>unresolved instances</h3>\n<ul>\n" ++
      String.join (names.map fun n => "<li>" ++ escape n ++ "</li>\n") ++ "</ul>\n"

/-- The heading of a section. -/
def heading (name : String) : String :=
  "<h2 id='" ++ escape name ++ "'>" ++ escape name ++ "</h2>\n"

/-- A section. -/
def sectionText (renderer : Option Renderer) (s : Section) : String :=
  heading s.name ++ "<hr/>\n<h3>flow</h3>\n" ++ flow renderer s ++ "\n<br>\n" ++ pinTable s.pins ++
    parameterTable s.parameters ++ unresolvedList s.unresolved ++
    "<pre>" ++ escape s.body ++ "</pre>\n"

/-! ### Pages -/

/-- The style of every page. -/
def style : String :=
  "<style>\ntable, th, td \x7b\n    border: 1px solid black;\n    border-collapse: collapse;\n" ++
    "\x7d\n</style>\n"

/-- The page of a source file: its name and the sections of the modules that it defines. -/
def filePage (renderer : Option Renderer) (doc : Document) (sourceFile : String) : String :=
  style ++ "<h1>" ++ escape ((Path.fileName? sourceFile).getD sourceFile) ++ "</h1>\n" ++
    String.join ((doc.sectionsOf sourceFile).map (sectionText renderer))

/-- The pages of the site in the order in which they are written, each with its name. -/
def pages (renderer : Option Renderer) (doc : Document) (files : List String) :
    List (String × String) :=
  ("index.html", index doc) :: ("menu.html", menu doc) ::
    files.map fun f => (pageName f, filePage renderer doc f)

end DesignAtlas.Html
