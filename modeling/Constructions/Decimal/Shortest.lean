import Constructions.Decimal.Binary64

/-!
# The shortest decimal of a floating point number

A finite number is written with the fewest digits that read back as the same number, and of those
with the nearest ones.

* `Binary64.shortest` -- the digits and the power of ten.
* `Binary64.text` -- the written form: positional from `0.0001` up to below `10^16`, always with a
  point, and with an exponent of at least two digits outside of that.
-/

namespace Constructions.Binary64

/-! ## 1. Digits -/

/-- The power of ten at or below `n / d`, for positive `n`. -/
def decimalExponent (n d : Nat) : Int :=
  if d ≤ n then digitCount (n / d) - 1
  else
    let k := digitCount (d / n)
    if d = n * Nat.pow 10 (k - 1) then 1 - k else -k

/-- The decimals `c · 10^k` with `c` one of the two neighbours of `n / d` on that grid that read
    back as `m · 2^q`; `n / d` is that value times four, and `below` and `above` are four times the
    ends of the interval that rounds to it, over the same denominator. -/
def candidates (n d below above : Nat) (even : Bool) (k : Int) : List Nat :=
  let (a, b) := scale 10 n (4 * d) k
  let floor := a / b
  [floor, floor + 1].filter fun c =>
    -- `c · 10^k` against the two ends, all multiplied out
    let (up, down) :=
      if 0 ≤ k then (4 * d * c * Nat.pow 10 k.toNat, 1) else (4 * d * c, Nat.pow 10 (-k).toNat)
    if even then below * down ≤ up && up ≤ above * down else below * down < up && up < above * down

/-- The nearer of two neighbouring grid points `c` and `c + 1` to `n / d`; the even one of a tie. -/
def nearer (n d c : Nat) (k : Int) : Nat :=
  let (a, b) := scale 10 n (4 * d) k
  roundDiv a b |>.max c |>.min (c + 1)

/-- The first grid with a candidate, from `digits` digits on, while `fuel` lasts. -/
def searchDigits (n d below above : Nat) (even : Bool) (top : Int) : Nat → Nat → Nat × Int
  | 0, _ => (0, 0)
  | fuel + 1, digits =>
    let k := top + 1 - digits
    match candidates n d below above even k with
    | [] => searchDigits n d below above even top fuel (digits + 1)
    | [c] => (c, k)
    | c :: _ => (nearer n d c k, k)

/-- `m · 2^q`, for positive `m`, as `c · 10^k` with the fewest digits that read back.  Seventeen
    digits always do. -/
def shortest (m : Nat) (q : Int) : Nat × Int :=
  let (n, d) := scale 2 (4 * m) 1 (-q)
  let (unit, _) := scale 2 1 1 (-q)
  let narrow := m = significandStart && -1074 < q
  let below := n - (if narrow then unit else 2 * unit)
  let (whole, part) := scale 2 m 1 (-q)
  searchDigits n d below (n + 2 * unit) (m % 2 == 0) (decimalExponent whole part) 18 1

/-! ## 2. Text -/

/-- Drops the zeros at the end of a digit text. -/
def stripZeros (digits : List Char) : List Char :=
  match (digits.reverse.dropWhile (· = '0')).reverse with
  | [] => ['0']
  | kept => kept

/-- The text of a power of ten: a sign and at least two digits. -/
def exponentText (e : Int) : String :=
  let digits := toString e.natAbs
  (if e < 0 then "e-" else "e+") ++ (if digits.length < 2 then "0" ++ digits else digits)

/-- Digits with the point after the first `point` of them, filled up with zeros where there are too
    few; an exponent when the point is far away. -/
def layout (digits : List Char) (point : Int) : String :=
  if point ≤ -4 || 16 < point then
    match digits with
    | [] => "0.0"
    | [c] => c.toString ++ exponentText (point - 1)
    | c :: rest => c.toString ++ "." ++ String.ofList rest ++ exponentText (point - 1)
  else if point ≤ 0 then
    "0." ++ String.ofList (List.replicate (-point).toNat '0' ++ digits)
  else
    let whole := digits.take point.toNat
    let fill := List.replicate (point.toNat - digits.length) '0'
    let part := digits.drop point.toNat
    String.ofList (whole ++ fill) ++ "." ++ (if part.isEmpty then "0" else String.ofList part)

/-- The written form of a number. -/
def text : Binary64 → String
  | nan => "nan"
  | infinite negative => if negative then "-inf" else "inf"
  | finite negative m q =>
    let sign := if negative then "-" else ""
    if m = 0 then sign ++ "0.0"
    else
      let (c, k) := shortest m q
      let digits := Nat.toDigits 10 c
      sign ++ layout (stripZeros digits) (digits.length + k)

end Constructions.Binary64
