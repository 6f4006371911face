import DesignAtlas.Text.Basic

/-! # Reading bytes as text

A byte sequence is read as UTF-8 from left to right. A lead byte announces the ranges of the bytes
that may follow it. When all of them follow, the bytes are one character; otherwise the lead byte,
together with the following bytes that did fit, is replaced by one replacement character, so every
maximal ill-formed piece gives one `U+FFFD` and nothing is refused. -/

namespace DesignAtlas.Utf8

/-- The first and last value that a byte may have. -/
structure ByteRange where
  low : Nat
  high : Nat
  deriving DecidableEq, Repr

/-- Whether a byte lies in a range. -/
def ByteRange.holds (r : ByteRange) (b : UInt8) : Bool :=
  decide (r.low ≤ b.toNat) && decide (b.toNat ≤ r.high)

/-- The bytes `80` to `BF`, which continue a character. -/
def tail : ByteRange := ⟨0x80, 0xbf⟩

/-- The ranges of the bytes that follow a lead byte, or `none` for a byte that leads nothing. -/
def followers (lead : UInt8) : Option (List ByteRange) :=
  let b := lead.toNat
  if b ≤ 0x7f then some []
  else if 0xc2 ≤ b ∧ b ≤ 0xdf then some [tail]
  else if b = 0xe0 then some [⟨0xa0, 0xbf⟩, tail]
  else if b = 0xed then some [⟨0x80, 0x9f⟩, tail]
  else if 0xe1 ≤ b ∧ b ≤ 0xef then some [tail, tail]
  else if b = 0xf0 then some [⟨0x90, 0xbf⟩, tail, tail]
  else if 0xf1 ≤ b ∧ b ≤ 0xf3 then some [tail, tail, tail]
  else if b = 0xf4 then some [⟨0x80, 0x8f⟩, tail, tail]
  else none

/-- The longest run of leading bytes that fit the ranges one by one. -/
def fitting : List ByteRange → List UInt8 → List UInt8
  | r :: rs, b :: bs => if r.holds b then b :: fitting rs bs else []
  | _, _ => []

/-- The code point of a lead byte and its followers: the low bits of the lead byte, then six bits
of each follower. -/
def codePoint (lead : UInt8) (rest : List UInt8) : Nat :=
  match rest with
  | [] => lead.toNat
  | _ => rest.foldl (fun v b => v * 64 + b.toNat % 64) (lead.toNat % (1 <<< (6 - rest.length)))

/-- The replacement character. -/
def replacement : Char := Char.ofNat 0xfffd

/-- The first character of a nonempty byte sequence and the number of followers it takes. -/
def readChar (lead : UInt8) (bytes : List UInt8) : Char × Nat :=
  match followers lead with
  | none => (replacement, 0)
  | some ranges =>
    let rest := fitting ranges bytes
    if rest.length = ranges.length then (Char.ofNat (codePoint lead rest), rest.length)
    else (replacement, rest.length)

/-- The text of a byte sequence, ill-formed pieces replaced. -/
def decode : List UInt8 → Text
  | [] => []
  | b :: bs => (readChar b bs).1 :: decode (bs.drop (readChar b bs).2)
  termination_by bytes => bytes.length
  decreasing_by simp only [List.length_drop, List.length_cons]; omega

end DesignAtlas.Utf8
