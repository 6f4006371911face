import DesignAtlas.Roster

/-! # Parameters

A parameter of a module has a name, a default value and, when one is declared, a size or a type. -/

namespace DesignAtlas

/-- A parameter of a module. -/
structure Parameter where
  name : String
  sizeOrType : Option String
  defaultValue : String
  deriving DecidableEq, Repr

instance : Named Parameter := ⟨Parameter.name⟩

end DesignAtlas
