import DesignAtlas.Options
import DesignAtlas.Toml.Document

/-! # Settings

The settings of a project stand in one table of a TOML document. Every key of that table must be
known and have a value of the right type; other tables and keys are not looked at. In the place of
the table there may be an array, which lists the values of all keys in their order. -/

namespace DesignAtlas

/-- The settings of a project; what is not set is `none`. -/
structure Config where
  /-- The top module. -/
  top : Option String := none
  /-- The directory of the site. -/
  outputDirectory : Option String := none
  elsePolicy : Option ElsePolicy := none
  captureLocalparams : Option Bool := none
  extraReservedWords : Option (List String) := none
  /-- The program that draws graphs. -/
  dotPath : Option String := none
  deriving DecidableEq, Repr

/-- Why settings are refused. -/
inductive ConfigError where
  | malformed (e : Toml.Error)
  | missingTable
  | unknownKey (key : String)
  | wrongType (key : String)
  /-- The values are listed, and there are fewer than keys. -/
  | missingValues
  deriving DecidableEq, Repr

namespace Config

/-- The name of the table. -/
def tableName : String := "hdldoc"

end Config

/-- The error in words. -/
def ConfigError.message : ConfigError → String
  | .malformed e => e.message
  | .missingTable => "missing table " ++ Config.tableName
  | .unknownKey k => "unknown key " ++ k
  | .wrongType k => "wrong type for key " ++ k
  | .missingValues => "missing values in " ++ Config.tableName

namespace Config

/-! ### Values -/

/-- The text that a value is. -/
def asString? : Toml.Value → Option String
  | .string s => some s
  | _ => none

/-- The truth value that a value is. -/
def asBool? : Toml.Value → Option Bool
  | .boolean b => some b
  | _ => none

/-- The policy of a name. -/
def policyOf? (name : String) : Option ElsePolicy :=
  if name = "keep-condition" then some .keep else if name = "negate" then some .negate else none

/-- The policy that a value names: by a string, or by the only key of a table, which then stands for
nothing more. -/
def asPolicy? : Toml.Value → Option ElsePolicy
  | .string s => policyOf? s
  | .table [(name, v)] => if v.isVoid then policyOf? name else none
  | _ => none

/-- The texts that a value lists. -/
def asStrings? : Toml.Value → Option (List String)
  | .array items => items.mapM asString?
  | _ => none

/-- Changes the settings by a value, if it has the right type. -/
def setWith {α : Type} (key : String) (value : Option α) (f : α → Config) :
    Except ConfigError Config :=
  match value with
  | some a => .ok (f a)
  | none => .error (.wrongType key)

/-- Sets a key. -/
def set (c : Config) (key : String) (v : Toml.Value) : Except ConfigError Config :=
  match key with
  | "top" => setWith key (asString? v) fun s => { c with top := some s }
  | "output_dir" => setWith key (asString? v) fun s => { c with outputDirectory := some s }
  | "else_policy" => setWith key (asPolicy? v) fun p => { c with elsePolicy := some p }
  | "capture_localparams" =>
    setWith key (asBool? v) fun b => { c with captureLocalparams := some b }
  | "extra_reserved_words" =>
    setWith key (asStrings? v) fun ws => { c with extraReservedWords := some ws }
  | "dot_path" => setWith key (asString? v) fun s => { c with dotPath := some s }
  | _ => .error (.unknownKey key)

/-! ### Documents -/

/-- The keys, in their order. -/
def keys : List String :=
  ["top", "output_dir", "else_policy", "capture_localparams", "extra_reserved_words", "dot_path"]

/-- The settings of some keys with their values. -/
def ofMembers (members : List (String × Toml.Value)) : Except ConfigError Config :=
  members.foldlM (fun c m => c.set m.1 m.2) {}

/-- The settings of a value. Of a list, what is behind the values of all keys is not looked at. -/
def ofValue : Toml.Value → Except ConfigError Config
  | .table members => ofMembers members
  | .array items =>
    if items.length < keys.length then .error .missingValues else ofMembers (keys.zip items)
  | _ => .error (.wrongType tableName)

/-- The settings of a document. -/
def ofDocument (members : List (String × Toml.Value)) : Except ConfigError Config :=
  match members.lookup tableName with
  | some v => ofValue v
  | none => .error .missingTable

/-- The settings that a text states. -/
def ofText (t : Text) : Except ConfigError Config :=
  match Toml.read t with
  | .error e => .error (.malformed e)
  | .ok d => ofDocument d

/-- The options of extraction that the settings state. -/
def options (c : Config) : Options where
  elsePolicy := c.elsePolicy.getD .keep
  captureLocalparams := c.captureLocalparams.getD false
  extraReservedWords := c.extraReservedWords.getD []

end Config

end DesignAtlas
