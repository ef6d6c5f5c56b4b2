/-!
# Decimal digits

Every script's decimal digits stand in a run of ten, zero first.

* `Text.zeroDigits` -- the zeros of those runs.
* `Text.digitValue?` -- the value of a digit of any script.
* `Text.asciiDigit?` -- the value of one of `0` to `9`.
* `Text.hexDigit?` -- the value of a hexadecimal digit, in either case.
* `Text.ofDigits` -- the number that digits spell; `Text.digitLimit` -- how many there may be.
* `Text.splitSign`, `Text.frontDigits` -- a sign, or digits, and what follows.
-/

namespace Constructions.Text

/-- The code points of the zeros, by the general category `Nd` of Unicode 14. -/
def zeroDigits : List Nat := [
  0x30, 0x660, 0x6F0, 0x7C0, 0x966, 0x9E6, 0xA66, 0xAE6, 0xB66, 0xBE6, 0xC66, 0xCE6, 0xD66, 0xDE6,
  0xE50, 0xED0, 0xF20, 0x1040, 0x1090, 0x17E0, 0x1810, 0x1946, 0x19D0, 0x1A80, 0x1A90, 0x1B50,
  0x1BB0, 0x1C40, 0x1C50, 0xA620, 0xA8D0, 0xA900, 0xA9D0, 0xA9F0, 0xAA50, 0xABF0, 0xFF10, 0x104A0,
  0x10D30, 0x11066, 0x110F0, 0x11136, 0x111D0, 0x112F0, 0x11450, 0x114D0, 0x11650, 0x116C0,
  0x11730, 0x118E0, 0x11950, 0x11C50, 0x11D50, 0x11DA0, 0x16A60, 0x16AC0, 0x16B50, 0x1D7CE,
  0x1D7D8, 0x1D7E2, 0x1D7EC, 0x1D7F6, 0x1E140, 0x1E2F0, 0x1E950, 0x1FBF0
]

/-- The value of a decimal digit of any script. -/
def digitValue? (c : Char) : Option Nat :=
  (zeroDigits.find? fun z => z ≤ c.toNat && c.toNat < z + 10).map (c.toNat - ·)

/-- The value of one of the digits `0` to `9`. -/
def asciiDigit? (c : Char) : Option Nat :=
  if '0' ≤ c ∧ c ≤ '9' then some (c.toNat - 48) else none

/-- The value of a hexadecimal digit. -/
def hexDigit? (c : Char) : Option Nat :=
  if '0' ≤ c ∧ c ≤ '9' then some (c.toNat - 48)
  else if 'a' ≤ c ∧ c ≤ 'f' then some (c.toNat - 87)
  else if 'A' ≤ c ∧ c ≤ 'F' then some (c.toNat - 55)
  else none

/-- The most decimal digits of an integer that is read from a text. -/
def digitLimit : Nat := 4300

/-- The number that digits spell in a base, the most significant one first. -/
def ofDigits (base : Nat) (digits : List Nat) : Nat := digits.foldl (fun n d => n * base + d) 0

/-- A sign and what follows it; the first part says whether it is a minus. -/
def splitSign : List Char → Bool × List Char
  | '-' :: rest => (true, rest)
  | '+' :: rest => (false, rest)
  | s => (false, s)

/-- An integer with the sign that was split off. -/
def signed (negative : Bool) (n : Nat) : Int := if negative then -(n : Int) else n

/-- The values of the digits at the front of a text, and what follows them. -/
def frontDigits (value? : Char → Option Nat) : List Char → List Nat × List Char
  | [] => ([], [])
  | c :: rest =>
    match value? c with
    | some d =>
      let (digits, rest) := frontDigits value? rest
      (d :: digits, rest)
    | none => ([], c :: rest)

end Constructions.Text
