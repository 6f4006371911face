import DesignAtlas.Text.Basic

/-! # TOML numbers

Integers are written in decimal, or behind `0x`, `0o` and `0b` in another base, and fit 64 bits with
a sign. Single underscores may stand between digits. Numbers with a fraction or an exponent are
checked for their form and for the range of doubles: one that would round to positive infinity is
refused, while a negative one of any size is kept. -/

namespace DesignAtlas.Toml

/-! ### Digits -/

/-- The value of a hexadecimal digit. -/
def hexValue? (c : Char) : Option Nat :=
  if c.isDigit then some (c.toNat - 48)
  else if decide ('a' ≤ c) && decide (c ≤ 'f') then some (c.toNat - 87)
  else if decide ('A' ≤ c) && decide (c ≤ 'F') then some (c.toNat - 55)
  else none

/-- Whether a character is a digit in a base of at most sixteen. -/
def isDigitIn (base : Nat) (c : Char) : Bool := (hexValue? c).any (· < base)

/-- The number that digits write in a base. -/
def natOfDigits (base : Nat) (digits : Text) : Nat :=
  digits.foldl (fun n c => n * base + (hexValue? c).getD 0) 0

/-- The digits of a nonempty text that has nothing else but single underscores between them. -/
def digitsOf? (base : Nat) (t : Text) : Option Text :=
  let groups := Text.split (· == '_') t
  if groups.any List.isEmpty || !groups.flatten.all (isDigitIn base) then none
  else some groups.flatten

/-- The decimal digits of a text, of which there is one or the first is not zero. -/
def wholeDigits? (t : Text) : Option Text :=
  (digitsOf? 10 t).filter fun ds => ds.head? != some '0' || ds.length == 1

/-! ### Integers -/

/-- The integer that a text writes, whatever its size. -/
def intOfText? : Text → Option Int
  | '0' :: 'x' :: t => (digitsOf? 16 t).map fun ds => (natOfDigits 16 ds : Int)
  | '0' :: 'o' :: t => (digitsOf? 8 t).map fun ds => (natOfDigits 8 ds : Int)
  | '0' :: 'b' :: t => (digitsOf? 2 t).map fun ds => (natOfDigits 2 ds : Int)
  | '-' :: t => (wholeDigits? t).map fun ds => -(natOfDigits 10 ds : Int)
  | '+' :: t => (wholeDigits? t).map fun ds => (natOfDigits 10 ds : Int)
  | t => (wholeDigits? t).map fun ds => (natOfDigits 10 ds : Int)

/-- Whether an integer fits 64 bits with a sign. -/
def fitsWord (n : Int) : Bool :=
  decide (-0x8000000000000000 ≤ n) && decide (n < 0x8000000000000000)

/-! ### Decimals -/

/-- The number `mantissa * 10 ^ exponent`. -/
structure Decimal where
  mantissa : Nat
  exponent : Int
  deriving DecidableEq, Repr

/-- The text before the first character that satisfies `p`, and the text behind that character. -/
def cutAt (p : Char → Bool) (t : Text) : Text × Option Text :=
  match t.dropWhile fun c => !p c with
  | [] => (t, none)
  | _ :: rest => (t.takeWhile fun c => !p c, some rest)

/-- The number that an exponent writes. -/
def exponentOf? : Text → Option Int
  | '-' :: t => (digitsOf? 10 t).map fun ds => -(natOfDigits 10 ds : Int)
  | '+' :: t => (digitsOf? 10 t).map fun ds => (natOfDigits 10 ds : Int)
  | t => (digitsOf? 10 t).map fun ds => (natOfDigits 10 ds : Int)

namespace Decimal

/-- The decimal that a text without sign writes with a fraction, an exponent, or both. -/
def ofText? (t : Text) : Option Decimal :=
  let (body, exponent?) := cutAt (fun c => c == 'e' || c == 'E') t
  let (whole, fraction?) := cutAt (· == '.') body
  if exponent?.isNone && fraction?.isNone then none
  else do
    let ds ← wholeDigits? whole
    let fs ← match fraction? with
      | some f => digitsOf? 10 f
      | none => some []
    let e ← match exponent? with
      | some e => exponentOf? e
      | none => some 0
    some ⟨natOfDigits 10 (ds ++ fs), e - fs.length⟩

/-- The least number that rounds to infinity as a double: half a unit above the largest double. -/
def doubleLimit : Nat := Nat.pow 2 1024 - Nat.pow 2 970

/-- Whether a decimal rounds to infinity as a double. The number of digits before its point decides
all cases but the close ones. -/
def overflows (d : Decimal) : Bool :=
  let size : Int := (Nat.toDigits 10 d.mantissa).length + d.exponent
  if d.mantissa = 0 ∨ size < 300 then false
  else if 310 < size then true
  else if 0 ≤ d.exponent then decide (doubleLimit ≤ d.mantissa * Nat.pow 10 d.exponent.toNat)
  else decide (doubleLimit * Nat.pow 10 (-d.exponent).toNat ≤ d.mantissa)

end Decimal

/-- Whether a text writes an infinity or no number. -/
def isSpecialFloat : Text → Bool
  | ['i', 'n', 'f'] => true
  | ['n', 'a', 'n'] => true
  | _ => false

/-- Whether a text writes a number that is no integer. -/
def isFloat : Text → Bool
  | '-' :: t => isSpecialFloat t || (Decimal.ofText? t).isSome
  | '+' :: t => isSpecialFloat t || (Decimal.ofText? t).any fun d => !d.overflows
  | t => isSpecialFloat t || (Decimal.ofText? t).any fun d => !d.overflows

end DesignAtlas.Toml
