/-!
# Binary floating point

The numbers of the 64-bit binary format, as exact values.

* `Binary64` -- `±m · 2^q`, an infinity, or not a number.
* `Binary64.ofRatio` -- the number nearest to a quotient, a tie going to the even significand.
* `Binary64.ofDecimal` -- the number nearest to `d · 10^e`.
* `Binary64.trunc?` -- the integer part.
-/

namespace Constructions

/-- A number of the format.  In `finite s m q` the value is `m · 2^q`, negated where `s` holds, with
    `m < 2^53` and `-1074 ≤ q ≤ 971`; unless `q = -1074`, `2^52 ≤ m`. -/
inductive Binary64
  | finite (negative : Bool) (m : Nat) (q : Int)
  | infinite (negative : Bool)
  | nan
deriving DecidableEq, Repr

namespace Binary64

/-! ## 1. Scaling and rounding -/

/-- `2^53`, one more than the largest significand. -/
def significandEnd : Nat := 0x20000000000000

/-- `2^52`, the least significand of a number that is not close to zero. -/
def significandStart : Nat := 0x10000000000000

/-- The number of binary digits. -/
def bitLength (n : Nat) : Nat := if n = 0 then 0 else n.log2 + 1

/-- The number of decimal digits; zero has one. -/
def digitCount (n : Nat) : Nat := (Nat.toDigits 10 n).length

/-- `n / d` divided by `base^q`, as a numerator and a denominator. -/
def scale (base n d : Nat) (q : Int) : Nat × Nat :=
  if 0 ≤ q then (n, d * base.pow q.toNat) else (n * base.pow (-q).toNat, d)

/-- The integer nearest to `n / d`; a tie goes to the even one. -/
def roundDiv (n d : Nat) : Nat :=
  let quotient := n / d
  let twice := 2 * (n % d)
  if twice < d then quotient
  else if d < twice then quotient + 1
  else quotient + quotient % 2

/-! ## 2. The nearest number -/

/-- The number nearest to `n / d`.  The exponent is first taken one too low or exact, then
    corrected, and once more when rounding carries into the next power of two. -/
def ofRatio (negative : Bool) (n d : Nat) : Binary64 :=
  if n = 0 then finite negative 0 (-1074)
  else
    let low := max ((bitLength n : Int) - bitLength d - 53) (-1074)
    let (a, b) := scale 2 n d low
    let q := if a / b < significandEnd then low else low + 1
    let (a, b) := scale 2 n d q
    let m := roundDiv a b
    let (m, q) := if m = significandEnd then (significandStart, q + 1) else (m, q)
    if 971 < q then infinite negative else finite negative m q

/-- The number nearest to `d · 10^e`.  Far outside the format's range the answer is infinite or zero
    without computing the power. -/
def ofDecimal (negative : Bool) (d : Nat) (e : Int) : Binary64 :=
  let magnitude := digitCount d + e
  if d = 0 || magnitude < -400 then finite negative 0 (-1074)
  else if 400 < magnitude then infinite negative
  else
    let (a, b) := scale 10 d 1 (-e)
    ofRatio negative a b

/-! ## 3. Integer values -/

/-- The integer part, cut toward zero; an infinity and what is not a number have none. -/
def trunc? : Binary64 → Option Int
  | finite negative m q =>
    let n : Int := (if 0 ≤ q then m * Nat.pow 2 q.toNat else m / Nat.pow 2 (-q).toNat : Nat)
    some (if negative then -n else n)
  | _ => none

/-- The value of a number that is an integer. -/
def integer? : Binary64 → Option Int
  | finite negative m q =>
    if 0 ≤ q || m % Nat.pow 2 (-q).toNat = 0 then trunc? (finite negative m q) else none
  | _ => none

end Binary64

end Constructions
