import Constructions.Text.Quoted

/-!
# What can be wrong with a YAML document

* `Yaml.BadScalar` -- a scalar that has no value, with `Yaml.BadScalar.message`.
* `Yaml.Fault` -- a document that is not of the grammar, or one with such a scalar.

A document that is merely malformed is no document.  A scalar without a value is reported instead,
so which of two faults is met first matters, and the readers look at no more of the text than they
need to go on.
-/

namespace Constructions.Yaml

/-- A scalar that has a form, or was said to have it, and yet no value. -/
inductive BadScalar
  /-- An escape names a character above the last one. -/
  | escapeBeyond
  /-- An escape names a number of more than 31 bits. -/
  | escapeOverflow
  /-- A text was said to be an integer and is none in that base. -/
  | notInteger (base : Nat) (text : String)
  /-- A text was said to be a floating point number and is none. -/
  | notFloat (text : String)
  /-- A word was said to be a truth value and is none. -/
  | notTruth (word : String)
  /-- A text was said to be a time and is none. -/
  | notTime
  /-- Nothing was said to be a number. -/
  | emptyNumber
  /-- A date has no such year. -/
  | year
  /-- A date has no such month. -/
  | month
  /-- A date has no such day. -/
  | day
  /-- A time has no such hour. -/
  | hour
  /-- A time has no such minute. -/
  | minute
  /-- A time has no such second. -/
  | second
  /-- A time zone is a day or more away; how far is kept as it is shown. -/
  | zone (shown : String)
deriving DecidableEq, Repr

/-- At most this much of a text is shown when it is not an integer. -/
def shownLength : Nat := 200

/-- The words for a scalar without a value. -/
def BadScalar.message : BadScalar → String
  | escapeBeyond => "chr() arg not in range(0x110000)"
  | escapeOverflow => "Python int too large to convert to C int"
  | notInteger base text =>
    "invalid literal for int() with base " ++ toString base ++ ": "
      ++ String.ofList ((Text.quoted text).toList.take shownLength)
  | notFloat text => "could not convert string to float: " ++ Text.quoted text
  | notTruth word => Text.quoted word
  | notTime => "'NoneType' object has no attribute 'groupdict'"
  | emptyNumber => "string index out of range"
  | year => "year 0 is out of range"
  | month => "month must be in 1..12"
  | day => "day is out of range for month"
  | hour => "hour must be in 0..23"
  | minute => "minute must be in 0..59"
  | second => "second must be in 0..59"
  | zone shown =>
    "offset must be a timedelta strictly between -timedelta(hours=24) and timedelta(hours=24), not "
      ++ shown ++ "."

/-- What is wrong with a document. -/
inductive Fault
  /-- It is not of the grammar, or has a form that no value is made of. -/
  | malformed
  /-- An integer has this many digits, too many to be read. -/
  | tooLong (digits : Nat)
  /-- A scalar has no value. -/
  | scalar (x : BadScalar)
deriving DecidableEq, Repr

end Constructions.Yaml
