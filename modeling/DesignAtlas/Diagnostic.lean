/-! # Diagnostics

Problems that do not stop the work: the offending fragment is left out and reported. -/

namespace DesignAtlas

/-- The kinds of problems. -/
inductive DiagnosticKind where
  | unrecognizedPin
  | unrecognizedParameter
  | unbalancedEndif
  | circularInstantiation
  | moduleRedefined
  deriving DecidableEq, Repr

/-- The heading of a kind. -/
def DiagnosticKind.label : DiagnosticKind → String
  | .unrecognizedPin => "UNKNOWN ARG"
  | .unrecognizedParameter => "UNKNOWN PARAMETER"
  | .unbalancedEndif => "UNBALANCED `endif"
  | .circularInstantiation => "circular instantiation detected"
  | .moduleRedefined => "MODULE REDEFINED"

/-- A problem met in a module. -/
structure Diagnostic where
  kind : DiagnosticKind
  module : String
  /-- The offending text or, for a cycle, the path of instantiations. -/
  text : String
  deriving DecidableEq, Repr

namespace Diagnostic

/-- The diagnostic in words. -/
def message (d : Diagnostic) : String := d.kind.label ++ " (" ++ d.module ++ "): " ++ d.text

/-- Counts one more problem of kind `k`. -/
def tally (k : DiagnosticKind) : List (DiagnosticKind × Nat) → List (DiagnosticKind × Nat)
  | [] => [(k, 1)]
  | (j, n) :: rest => if j = k then (j, n + 1) :: rest else (j, n) :: tally k rest

/-- The number of problems of each kind, kinds in the order in which they first occur. -/
def summary (ds : List Diagnostic) : List (DiagnosticKind × Nat) :=
  ds.foldl (fun counts d => tally d.kind counts) []

/-- The diagnostics of one kind. -/
def ofKind (k : DiagnosticKind) (ds : List Diagnostic) : List Diagnostic :=
  ds.filter fun d => d.kind == k

/-- All counts of a summary in one line. -/
def summaryText (ds : List Diagnostic) : String :=
  ", ".intercalate ((summary ds).map fun c => c.1.label ++ " x" ++ toString c.2)

end Diagnostic

end DesignAtlas
