import DesignAtlas.Toml.Number

/-! # TOML dates and times

A date is written with four, two and two digits, a time with two, two and two digits and perhaps a
fraction of the second. A date and a time may stand together, with `T` between them, and then an
offset from universal time may follow. Days must exist in their month; a minute may have a second
of number 60. -/

namespace DesignAtlas.Toml

/-- Reads a number of exactly so many digits. -/
def takeNumber? (width : Nat) (t : Text) : Option (Nat × Text) :=
  if (t.take width).length = width ∧ (t.take width).all Char.isDigit then
    some (natOfDigits 10 (t.take width), t.drop width)
  else none

/-- The text behind a given first character. -/
def skip? (c : Char) : Text → Option Text
  | d :: t => if d = c then some t else none
  | [] => none

/-- Whether a year has a 29th of February. -/
def isLeapYear (year : Nat) : Bool := year % 4 == 0 && (year % 100 != 0 || year % 400 == 0)

/-- The number of days of a month, counted from 1. -/
def daysIn (year month : Nat) : Nat :=
  if month = 2 then if isLeapYear year then 29 else 28
  else if month = 4 ∨ month = 6 ∨ month = 9 ∨ month = 11 then 30
  else 31

/-- The text behind a date. -/
def afterDate? (t : Text) : Option Text := do
  let (year, t) ← takeNumber? 4 t
  let (month, t) ← takeNumber? 2 (← skip? '-' t)
  let (day, t) ← takeNumber? 2 (← skip? '-' t)
  if 1 ≤ month ∧ month ≤ 12 ∧ 1 ≤ day ∧ day ≤ daysIn year month then some t else none

/-- The text behind a fraction of a second, which may be missing. -/
def afterFraction? : Text → Option Text
  | '.' :: t => if (t.takeWhile Char.isDigit).isEmpty then none else some (t.dropWhile Char.isDigit)
  | t => some t

/-- The text behind a time. -/
def afterTime? (t : Text) : Option Text := do
  let (hour, t) ← takeNumber? 2 t
  let (minute, t) ← takeNumber? 2 (← skip? ':' t)
  let (second, t) ← takeNumber? 2 (← skip? ':' t)
  if hour ≤ 23 ∧ minute ≤ 59 ∧ second ≤ 60 then afterFraction? t else none

/-- The text behind hours and minutes. -/
def afterShift? (t : Text) : Option Text := do
  let (hour, t) ← takeNumber? 2 t
  let (minute, t) ← takeNumber? 2 (← skip? ':' t)
  if hour ≤ 23 ∧ minute ≤ 59 then some t else none

/-- Whether a text is an offset from universal time, or empty. -/
def isOffset : Text → Bool
  | [] => true
  | ['Z'] => true
  | ['z'] => true
  | '+' :: t => afterShift? t == some []
  | '-' :: t => afterShift? t == some []
  | _ => false

/-- Whether a text is a date. -/
def isDate (t : Text) : Bool := afterDate? t == some []

/-- Whether a text is a time that may follow a date. -/
def isClock (t : Text) : Bool := (afterTime? t).any isOffset

/-- Whether a text is a date and a time with `T` between them. -/
def isDateAndClock (t : Text) : Bool :=
  match afterDate? t with
  | some (c :: t) => (c == 'T' || c == 't') && isClock t
  | _ => false

/-- Whether a text is a date, a time, or both. -/
def isMoment (t : Text) : Bool := isDate t || isDateAndClock t || afterTime? t == some []

end DesignAtlas.Toml
