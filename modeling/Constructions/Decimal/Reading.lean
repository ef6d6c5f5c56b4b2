import Constructions.Decimal.Binary64
import Constructions.Text.Blank
import Constructions.Text.Digit

/-!
# Floating point numbers in texts

* `Binary64.ofText?` -- the number that a text spells: blanks around it, a sign, and decimal digits
  of any script with a point and an exponent, or a word for infinity or for what is not a number.
* `Binary64.neg`, `add`, `mul` -- arithmetic, rounded to the nearest number.
-/

namespace Constructions

namespace Binary64

/-! ## 1. Texts -/

/-- The exponent at the end of a number; nothing is zero. -/
def exponent? : List Char → Option Int
  | [] => some 0
  | e :: rest =>
    if e = 'e' || e = 'E' then
      let (negative, rest) := Text.splitSign rest
      match Text.frontDigits Text.digitValue? rest with
      | (d :: digits, []) => some (Text.signed negative (Text.ofDigits 10 (d :: digits)))
      | _ => none
    else none

/-- A number in decimal digits, with a point among them and an exponent after them. -/
def ofDigits? (negative : Bool) (s : List Char) : Option Binary64 := do
  let (whole, rest) := Text.frontDigits Text.digitValue? s
  let (fraction, rest) := match rest with
    | '.' :: rest => Text.frontDigits Text.digitValue? rest
    | rest => ([], rest)
  if whole.isEmpty && fraction.isEmpty then none
  let power ← exponent? rest
  return ofDecimal negative (Text.ofDigits 10 (whole ++ fraction)) (power - fraction.length)

/-- The number that a text spells. -/
def ofText? (s : List Char) : Option Binary64 :=
  let (negative, body) := Text.splitSign (Text.trimBlank s)
  let word := String.ofList (body.map Char.toLower)
  if word = "inf" || word = "infinity" then some (infinite negative)
  else if word = "nan" then some nan
  else ofDigits? negative body

/-! ## 2. Arithmetic -/

/-- The number with the other sign. -/
def neg : Binary64 → Binary64
  | finite negative m q => finite (!negative) m q
  | infinite negative => infinite (!negative)
  | nan => nan

/-- The numerator of `m · 2^q` over `2^1074`, with its sign. -/
def numerator (negative : Bool) (m : Nat) (q : Int) : Int :=
  Text.signed negative (m * Nat.pow 2 (q + 1074).toNat)

/-- The sum of two numbers. -/
def add : Binary64 → Binary64 → Binary64
  | finite s m q, finite t n r =>
    let sum := numerator s m q + numerator t n r
    if sum = 0 then finite (s && t) 0 (-1074)
    else ofRatio (sum < 0) sum.natAbs (Nat.pow 2 1074)
  | infinite s, infinite t => if s = t then infinite s else nan
  | infinite s, finite .. | finite .., infinite s => infinite s
  | nan, _ | _, nan => nan

/-- The product of two numbers. -/
def mul : Binary64 → Binary64 → Binary64
  | finite s m q, finite t n r =>
    let (a, b) := scale 2 (m * n) 1 (-(q + r))
    ofRatio (s != t) a b
  | infinite s, infinite t => infinite (s != t)
  | infinite s, finite t n _ | finite t n _, infinite s =>
    if n = 0 then nan else infinite (s != t)
  | nan, _ | _, nan => nan

end Binary64

end Constructions
