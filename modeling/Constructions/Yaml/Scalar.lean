import Constructions.Decimal.Reading
import Constructions.Value.Integer
import Constructions.Yaml.Form

/-!
# The values of scalars

* `Yaml.intIn` -- an integer in a base; `Yaml.readInt` -- in the base that its text shows.
* `Yaml.readFloat` -- a floating point number.
* `Yaml.readAs` -- the value of a text in a form.
-/

namespace Constructions.Yaml

/-! ## 1. Numbers -/

/-- The value of a digit below a base. -/
def digitBelow? (base : Nat) (c : Char) : Option Nat :=
  ((Text.hexDigit? c).or (Text.digitValue? c)).filter (· < base)

/-- The letter that marks a base, after a zero. -/
def baseLetter? : Nat → Option Char
  | 2 => some 'b'
  | 8 => some 'o'
  | 16 => some 'x'
  | _ => none

/-- A text without the mark of its base, which is written in either case. -/
def withoutBase (base : Nat) : List Char → List Char
  | '0' :: letter :: rest =>
    if baseLetter? base = some letter.toLower then rest else '0' :: letter :: rest
  | s => s

/-- The integer that a text spells in a base, with blanks around it.  In base ten the digits at the
    front are counted before anything behind them is looked at. -/
def intIn (base : Nat) (s : List Char) : Except Fault Int :=
  let (negative, body) := Text.splitSign (s.dropWhile Text.isBlank)
  let (digits, rest) := Text.frontDigits (digitBelow? base) (withoutBase base body)
  if base = 10 ∧ Text.digitLimit < digits.length then .error (.tooLong digits.length)
  else if digits.isEmpty ∨ !rest.all Text.isBlank then
    .error (.scalar (.notInteger base (String.ofList s)))
  else .ok (Text.signed negative (Text.ofDigits base digits))

/-- Places of a number in base sixty, the first one weighing most. -/
def inSixties (places : List Int) : Int := places.foldl (fun n p => n * 60 + p) 0

/-- The integer of a text, in the base that its first characters show.  Low lines do not count. -/
def readInt (s : List Char) : Except Fault Int := do
  let (negative, body) := Text.splitSign (s.filter (· ≠ '_'))
  let n ← match body with
    | [] => .error (.scalar .emptyNumber)
    | ['0'] => pure 0
    | '0' :: 'b' :: rest => intIn 2 rest
    | '0' :: 'x' :: rest => intIn 16 rest
    | '0' :: _ => intIn 8 body
    | body => inSixties <$> (colonParts body).mapM (intIn 10)
  return if negative then -n else n

/-- The floating point number that a text spells. -/
def floatIn (s : List Char) : Except Fault Binary64 :=
  match Binary64.ofText? s with
  | some x => .ok x
  | none => .error (.scalar (.notFloat (String.ofList s)))

/-- Places of a floating point number in base sixty, the last one weighing least, added from there
    on; `weight` is that of the last one. -/
def floatInSixties : List Binary64 → Nat → Binary64 → Binary64
  | [], _, sum => sum
  | place :: higher, weight, sum =>
    floatInSixties higher (weight * 60) (sum.add (place.mul (.ofRatio false weight 1)))

/-- The floating point number of a text.  Low lines do not count, nor does the case of letters. -/
def readFloat (s : List Char) : Except Fault Binary64 := do
  let text := (s.filter (· ≠ '_')).map Char.toLower
  if text.isEmpty then throw (.scalar .emptyNumber)
  let (negative, body) := Text.splitSign text
  let x ←
    if body = ".inf".toList then pure (.infinite false)
    else if body = ".nan".toList then pure .nan
    else match colonParts body with
      | [part] => floatIn part
      | parts => do
        pure (floatInSixties (← parts.mapM floatIn).reverse 1 (.finite false 0 (-1074)))
  return if negative then x.neg else x

/-! ## 2. Values -/

/-- The value of a text in a form. -/
def readAs (form : Form) (s : String) : Except Fault Value :=
  match form with
  | .null => .ok .null
  | .bool =>
    match truthWords.lookup s.toLower with
    | some b => .ok (.bool b)
    | none => .error (.scalar (.notTruth s.toLower))
  | .int => do return .int (← readInt s.toList)
  | .float => do return .double (← readFloat s.toList)
  | .time =>
    match Stamp.ofText? (withoutLastBreak s).toList with
    | some stamp => stamp.toValue.mapError .scalar
    | none => .error (.scalar .notTime)
  | .text => .ok (.text s)
  | .merge | .default | .list | .map => .error .malformed

end Constructions.Yaml
