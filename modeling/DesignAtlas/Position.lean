import DesignAtlas.Text.Basic

/-! # Positions and spans

A position counts bytes from 0 and lines and columns from 1; columns count characters. Passing a
newline begins the next line. A span is a pair of positions, and its slice of a text is the piece
between their byte offsets.

The counts of a position have no bound. What is shown of them stands in counters, which have 32 bits
for lines and for columns and begin again at 0 when they are full. They count along with the
position (`Position.counters_advance`). -/

namespace DesignAtlas

/-- A place in a text. -/
structure Position where
  /-- Bytes before the place. -/
  offset : Nat
  /-- Line of the place, the first one being 1. -/
  line : Nat
  /-- Column of the place, the first one being 1. -/
  column : Nat
  deriving DecidableEq, Repr

namespace Position

/-- The beginning of a text. -/
def start : Position := ⟨0, 1, 1⟩

/-- The place after one more character. -/
def step (p : Position) (c : Char) : Position :=
  if c = '\n' then ⟨p.offset + c.utf8Size, p.line + 1, 1⟩
  else ⟨p.offset + c.utf8Size, p.line, p.column + 1⟩

/-- The place after a piece of text. -/
def advance (p : Position) (t : Text) : Position := t.foldl step p

@[simp] theorem advance_nil (p : Position) : p.advance [] = p := rfl

@[simp] theorem advance_cons (p : Position) (c : Char) (t : Text) :
    p.advance (c :: t) = (p.step c).advance t := rfl

@[simp] theorem advance_append (p : Position) (a b : Text) :
    p.advance (a ++ b) = (p.advance a).advance b := by simp [advance]

@[simp] theorem offset_step (p : Position) (c : Char) :
    (p.step c).offset = p.offset + c.utf8Size := by
  unfold step; split <;> rfl

@[simp] theorem offset_advance (p : Position) (t : Text) :
    (p.advance t).offset = p.offset + t.byteLength := by
  induction t generalizing p with
  | nil => simp
  | cons c t ih => simp [ih, Nat.add_assoc]

end Position

/-! ### Counters of 32 bits -/

/-- Counters for a text, those of lines and columns with a bound. -/
structure Counters where
  /-- Bytes counted. -/
  offset : Nat
  line : UInt32
  column : UInt32
  deriving DecidableEq, Repr

namespace Counters

/-- The counters at the beginning of a text. -/
def start : Counters := ⟨0, 1, 1⟩

/-- Counts one more character. A counter that is full begins again at 0. -/
def step (k : Counters) (c : Char) : Counters :=
  if c = '\n' then ⟨k.offset + c.utf8Size, k.line + 1, 1⟩
  else ⟨k.offset + c.utf8Size, k.line, k.column + 1⟩

/-- Counts a piece of text. -/
def advance (k : Counters) (t : Text) : Counters := t.foldl step k

end Counters

namespace Position

/-- What the counters hold at a position. -/
def counters (p : Position) : Counters := ⟨p.offset, .ofNat p.line, .ofNat p.column⟩

theorem counters_start : start.counters = Counters.start := rfl

/-- **The counters count one more character** as the position does without a bound. -/
theorem counters_step (p : Position) (c : Char) : (p.step c).counters = p.counters.step c := by
  unfold step Counters.step
  split
  · exact congrArg (Counters.mk _ · 1) (UInt32.ofNat_add p.line 1)
  · exact congrArg (Counters.mk _ _) (UInt32.ofNat_add p.column 1)

theorem counters_advance (p : Position) (t : Text) :
    (p.advance t).counters = p.counters.advance t := by
  induction t generalizing p with
  | nil => rfl
  | cons c t ih => rw [advance_cons, ih, counters_step]; rfl

end Position

/-- The piece of a text between two places. -/
structure Span where
  start : Position
  limit : Position
  deriving DecidableEq, Repr

namespace Span

/-- The characters of the text that the span covers. -/
def slice (s : Span) (t : Text) : Text :=
  (t.dropBytes s.start.offset).takeBytes (s.limit.offset - s.start.offset)

/-- The span as `line:column..line:column`. -/
def describe (s : Span) : String :=
  toString s.start.counters.line ++ ":" ++ toString s.start.counters.column ++ ".." ++
    toString s.limit.counters.line ++ ":" ++ toString s.limit.counters.column

/-- The span of a piece is cut out of the text around it. -/
theorem slice_append (a b c : Text) :
    slice ⟨Position.start.advance a, Position.start.advance (a ++ b)⟩ (a ++ b ++ c) = b := by
  have h0 : (Position.start.advance a).offset = a.byteLength := by simp [Position.start]
  have h1 : (Position.start.advance (a ++ b)).offset = a.byteLength + b.byteLength := by
    simp [Position.start]
  rw [slice, h0, h1, Nat.add_sub_cancel_left, List.append_assoc, Text.dropBytes_append,
    Text.takeBytes_append]

end Span

end DesignAtlas
