import DesignAtlas.Design
import DesignAtlas.Proofs.ModuleInfo.Instances
import DesignAtlas.Proofs.Token.Listed

/-! # Outlines of modules

An outline is a module without the freedom of source text: its name, its parameters with their
defaults, its ports and its instances. It is printed as

  module name #(parameter p = d, ...) (input wire [m:n] a, ...);
  callee inst ();
  endmodule

and stands for what is to be known about the module (`Outline.info`). All names are plain words
without a meaning of their own under the given options. -/

namespace DesignAtlas

/-! ### Names and values -/

/-- A word without a meaning of its own. -/
structure Word.IsFree (o : Options) (w : Word) : Prop extends w.IsCallable o where
  noNetType : w.name ∉ netTypes
  noSigning : isSigning w.name = false

instance (o : Options) (w : Word) : Decidable (w.IsFree o) :=
  decidable_of_iff (w.IsCallable o ∧ w.name ∉ netTypes ∧ isSigning w.name = false)
    ⟨fun h => ⟨h.1, h.2.1, h.2.2⟩, fun h => ⟨h.1, h.2, h.3⟩⟩

/-- A word that can be used as a name. -/
structure Identifier (o : Options) extends Word where
  free : toWord.IsFree o

/-- The default of a parameter. -/
inductive Value (o : Options) where
  | word (w : Identifier o)
  | numeral (n : Numeral)

/-- The value as it is written. -/
def Value.text {o : Options} : Value o → Text
  | .word w => w.text
  | .numeral n => n.text

/-- A net type. -/
structure NetType extends Word where
  listed : toWord.name ∈ netTypes

/-! ### Ports -/

/-- A port of an outline. -/
structure Port (o : Options) where
  direction : Direction
  netType : Option NetType
  range : Option (Numeral × Numeral)
  label : Identifier o

namespace Port

variable {o : Options}

/-- The range `[m:n]`. -/
def rangeText (r : Numeral × Numeral) : Text := '[' :: r.1.text ++ ':' :: r.2.text ++ [']']

/-- The port as it is written. -/
def print (p : Port o) : Text :=
  p.direction.word.toList ++ (p.netType.elim [] fun t => ' ' :: t.text) ++
    (p.range.elim [] fun r => ' ' :: rangeText r) ++ ' ' :: p.label.text

/-- The pin that the port declares. -/
def pin (p : Port o) : Pin :=
  ⟨p.label.name, some p.direction, p.netType.map (·.name),
    p.range.map fun r => String.ofList (rangeText r), []⟩

end Port

/-! ### Outlines -/

/-- A module by its name, its parameters with their defaults, its ports and its instances, each a
callee and a name. -/
structure Outline (o : Options) where
  label : Identifier o
  parameters : List (Identifier o × Value o)
  ports : List (Port o)
  instances : List (Identifier o × Identifier o)
  parameters_nodup : (parameters.map fun p => p.1.name).Nodup
  ports_nodup : (ports.map fun p => p.label.name).Nodup

namespace Outline

variable {o : Options}

/-- Texts with a comma and a space between them. -/
def commas (ts : List Text) : Text := List.intercalate ", ".toList ts

/-- A parameter as it is written. -/
def printParameter (p : Identifier o × Value o) : Text :=
  "parameter ".toList ++ p.1.text ++ " = ".toList ++ p.2.text

/-- The parameter block, which is left out when there are no parameters. -/
def printParameters (m : Outline o) : Text :=
  if m.parameters.isEmpty then []
  else " #(".toList ++ commas (m.parameters.map printParameter) ++ ")".toList

/-- The header, its semicolon included. -/
def printHeader (m : Outline o) : Text :=
  "module ".toList ++ m.label.text ++ m.printParameters ++
    " (".toList ++ commas (m.ports.map Port.print) ++ ");".toList

/-- An instance on its line. -/
def printInstance (x : Identifier o × Identifier o) : Text :=
  x.1.text ++ ' ' :: x.2.text ++ " ();\n".toList

/-- The body, from the end of the header's line on. -/
def printBody (m : Outline o) : Text := '\n' :: m.instances.flatMap printInstance

/-- The module as it is written. -/
def print (m : Outline o) : Text := m.printHeader ++ m.printBody ++ "endmodule\n".toList

/-- The parameter that is declared. -/
def parameter (p : Identifier o × Value o) : Parameter :=
  ⟨p.1.name, none, String.ofList p.2.text⟩

/-- The instance that is recorded. -/
def instanceOf (x : Identifier o × Identifier o) : Instance :=
  ⟨x.1.name, some x.2.name, String.ofList (x.1.text ++ ' ' :: x.2.text ++ " ()".toList), []⟩

/-- What is to be known about the module in a file. -/
def info (path : String) (m : Outline o) : ModuleInfo where
  name := m.label.name
  sourceFile := path
  pins := ⟨m.ports.map Port.pin⟩
  parameters := ⟨m.parameters.map parameter⟩
  body := String.ofList m.printBody
  instances := m.instances.map instanceOf

/-! ### Comma lists as glyphs -/

section Blocks

variable {α β : Type} {glyphs : Text → α → List Glyph} {pr : α → Text}

/-- The blocks of a comma list: a space stands before each but the first. -/
def blocks (glyphs : Text → α → List Glyph) : List α → List (List Glyph)
  | [] => []
  | x :: xs => glyphs [] x :: xs.map (glyphs [' '])

theorem mem_blocks {b : List Glyph} : ∀ {xs : List α}, b ∈ blocks glyphs xs →
    ∃ gap : Text, (∀ c ∈ gap, isBlank c = true) ∧ ∃ x ∈ xs, b = glyphs gap x
  | x :: xs, h => by
    rcases List.mem_cons.mp h with rfl | h
    · exact ⟨[], blank_nil, x, by simp, rfl⟩
    · obtain ⟨y, hy, rfl⟩ := List.mem_map.mp h
      exact ⟨[' '], blank_space, y, by simp [hy], rfl⟩

theorem spell_blocks (h : ∀ gap x, Glyph.spell (glyphs gap x) = gap ++ pr x)
    (xs : List α) : Glyph.spell (Glyph.listed (blocks glyphs xs)) = commas (xs.map pr) := by
  have htail : ∀ (gap : Text) (x : α) (xs : List α),
      Glyph.spell (Glyph.listed (glyphs gap x :: xs.map (glyphs [' ']))) =
        gap ++ commas ((x :: xs).map pr) := by
    intro gap x xs
    induction xs generalizing gap x with
    | nil => simpa [Glyph.listed, commas] using h gap x
    | cons y ys ih =>
      rw [List.map_cons, Glyph.spell_listed_cons, ih, h]
      simp [commas, List.intercalate_cons_cons]
  cases xs with
  | nil => rfl
  | cons x xs => exact htail [] x xs

theorem forall₂_blocks {R : List Glyph → β → Prop} {f : α → β}
    (h : ∀ gap x, R (glyphs gap x) (f x)) (xs : List α) :
    List.Forall₂ R (blocks glyphs xs) (xs.map f) := by
  cases xs with
  | nil => exact .nil
  | cons x xs =>
    refine .cons (h [] x) ?_
    rw [List.forall₂_map_left_iff, List.forall₂_map_right_iff]
    exact List.forall₂_same.mpr fun y _ => h [' '] y

/-- **A printed list is scanned block by block.** -/
theorem scan_commas (hspell : ∀ gap x, Glyph.spell (glyphs gap x) = gap ++ pr x)
    (hreads : ∀ gap x u, (∀ c ∈ gap, isBlank c = true) → Glyph.Stops u →
      Glyph.ReadAll (glyphs gap x) u) (xs : List α) :
    Token.scan (commas (xs.map pr)) =
      Glyph.place Position.start (Glyph.listed (blocks glyphs xs)) := by
  have hall : Glyph.ReadAll (Glyph.listed (blocks glyphs xs)) [] := by
    refine Glyph.readAll_listed (by simp [Glyph.Stops]) fun b hb u hu => ?_
    obtain ⟨gap, hgap, x, -, rfl⟩ := mem_blocks hb
    exact hreads gap x u hgap hu
  have := Glyph.scanFrom_spell_blank hall blank_nil Position.start
  rwa [List.append_nil, spell_blocks hspell] at this

/-- **A printed list is read block by block,** each in the text of the whole list. -/
theorem forall₂_commas (hspell : ∀ gap x, Glyph.spell (glyphs gap x) = gap ++ pr x)
    {R : Text → List Token → β → Prop} {f : α → β}
    (h : ∀ gap x a c, R (a ++ Glyph.spell (glyphs gap x) ++ c)
      (Glyph.place (Position.start.advance a) (glyphs gap x)) (f x)) (xs : List α) :
    List.Forall₂ (R (commas (xs.map pr)))
      (Glyph.placeListed Position.start (blocks glyphs xs)) (xs.map f) := by
  refine Glyph.forall₂_placeListed (commas (xs.map pr)) (forall₂_blocks ?_ xs) [] [] ?_
  · intro gap x a c ht
    rw [ht]
    exact h gap x a c
  · rw [spell_blocks hspell, List.nil_append, List.append_nil]

end Blocks

end Outline

end DesignAtlas
