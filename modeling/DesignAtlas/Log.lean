/-! # Log lines

What an operation has to say about its work, as data: a level and a message. -/

namespace DesignAtlas

/-- How important a log line is. -/
inductive LogLevel where
  | debug
  | info
  | warn
  deriving DecidableEq, Repr

/-- The name of a level. -/
def LogLevel.label : LogLevel → String
  | .debug => "DEBUG"
  | .info => "INFO"
  | .warn => "WARN"

/-- One line of a log. -/
structure LogLine where
  level : LogLevel
  message : String
  deriving DecidableEq, Repr

/-- The line as its level and its message. -/
def LogLine.render (l : LogLine) : String := l.level.label ++ " " ++ l.message

end DesignAtlas
