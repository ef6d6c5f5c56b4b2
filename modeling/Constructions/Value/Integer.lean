import Constructions.Text.Blank
import Constructions.Text.Digit
import Constructions.Value.Basic

/-!
# Values as integers

* `Text.integer?` -- the integer that a text spells: blanks around it, a sign, and decimal digits of
  any script with single low lines between them.
* `Value.toInteger` -- the integer that a value gives, if it gives one.
-/

namespace Constructions

namespace Text

/-- The values of digits with single low lines between them. -/
def groupedDigits? (value? : Char → Option Nat) : List Char → Option (List Nat)
  | [] => none
  | [c] => (value? c).map ([·])
  | c :: '_' :: rest => do return (← value? c) :: (← groupedDigits? value? rest)
  | c :: rest => do return (← value? c) :: (← groupedDigits? value? rest)

/-- The integer that a text spells in decimal digits. -/
def integer? (s : String) : Option Int := do
  let (negative, body) := splitSign (trimBlank s.toList)
  let digits ← groupedDigits? digitValue? body
  if digitLimit < digits.length then none
  else return signed negative (ofDigits 10 digits)

end Text

/-- What a value gives where an integer is asked for. -/
inductive AsInteger
  | integer (n : Int)
  /-- The value is not a number. -/
  | absent
  /-- The value is infinite, so that no integer is near it. -/
  | infinite
deriving DecidableEq, Repr

/-- The integer of a value: truth values count, floating point numbers are cut toward zero, texts
    are read. -/
def Value.toInteger : Value → AsInteger
  | .bool b => .integer (if b then 1 else 0)
  | .int n => .integer n
  | .double (.infinite _) => .infinite
  | .double x => (x.trunc?).elim .absent .integer
  | .text s => (Text.integer? s).elim .absent .integer
  | _ => .absent

end Constructions
