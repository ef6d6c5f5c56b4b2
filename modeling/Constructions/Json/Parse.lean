import Constructions.Assoc
import Constructions.Json.Basic
import Constructions.Text.Digit

/-!
# Reading JSON

The standard grammar, and besides it the numbers `NaN`, `Infinity` and `-Infinity`.  Of two fields
of one name the later one counts, in the place of the earlier.

* `Json.Fault` -- a text that is no JSON, or an integer with too many digits.
* `Json.readValue` -- a value at the front of a text, and the text after it.
* `Json.parse` -- a whole text.

A reader takes the text as characters and returns what is left of it.  The readers of nested values
take a bound on the nesting and on the number of items, which the length of the text always meets.
-/

namespace Constructions.Json

/-- Why a text was not read. -/
inductive Fault
  /-- The text is not of the grammar. -/
  | malformed
  /-- An integer has this many digits, more than `Text.digitLimit`. -/
  | tooLong (digits : Nat)
deriving DecidableEq, Repr

/-- Drops the blanks that may stand between the parts of a value. -/
def skipBlanks (s : List Char) : List Char :=
  s.dropWhile fun c => c = ' ' || c = '\t' || c = '\n' || c = '\r'

/-! ## 1. Strings -/

/-- The character that a one-letter escape stands for. -/
def simpleEscape? : Char → Option Char
  | '\x22' => some '\x22'
  | '\\' => some '\\'
  | '/' => some '/'
  | 'b' => some '\x08'
  | 'f' => some '\x0c'
  | 'n' => some '\n'
  | 'r' => some '\r'
  | 't' => some '\t'
  | _ => none

/-- The code units of a string up to its closing quote: characters as code points, and the escapes
    `\u` as the units they give.  A control character below U+0020 may only be written as an escape.
    `done` holds the units so far, the last one first. -/
def readUnits (done : List Nat) : List Char → Except Fault (List Nat × List Char)
  | [] => .error .malformed
  | '\x22' :: rest => .ok (done.reverse, rest)
  | '\\' :: 'u' :: a :: b :: c :: d :: rest =>
    match [a, b, c, d].mapM Text.hexDigit? with
    | some digits => readUnits (Text.ofDigits 16 digits :: done) rest
    | none => .error .malformed
  | '\\' :: e :: rest =>
    match simpleEscape? e with
    | some c => readUnits (c.toNat :: done) rest
    | none => .error .malformed
  | c :: rest =>
    if c.toNat < 0x20 || c = '\\' then .error .malformed else readUnits (c.toNat :: done) rest

/-- A high and a low surrogate in a row are one character; a lone one has none of its own. -/
def joinUnits : List Nat → List Char
  | [] => []
  | h :: l :: rest =>
    if 0xD800 ≤ h ∧ h < 0xDC00 ∧ 0xDC00 ≤ l ∧ l < 0xE000 then
      Char.ofNat (0x10000 + (h - 0xD800) * 0x400 + (l - 0xDC00)) :: joinUnits rest
    else Char.ofNat h :: joinUnits (l :: rest)
  | [u] => [Char.ofNat u]

/-- A string whose opening quote is already taken. -/
def readStr (s : List Char) : Except Fault (String × List Char) := do
  let (units, rest) ← readUnits [] s
  return (String.ofList (joinUnits units), rest)

/-! ## 2. Numbers -/

/-- The digits at the front of a text. -/
def takeDigits (s : List Char) : List Char × List Char := s.span Char.isDigit

/-- The number that decimal digits spell. -/
def natOf (digits : List Char) : Nat := Text.ofDigits 10 (digits.filterMap Text.asciiDigit?)

/-- The digits after a point; a point without a digit is not part of the number. -/
def takeFraction : List Char → List Char × List Char
  | '.' :: rest =>
    match takeDigits rest with
    | ([], _) => ([], '.' :: rest)
    | found => found
  | s => ([], s)

/-- The value of an exponent; a mark without a digit is not part of the number. -/
def takeExponent (s : List Char) : Option Int × List Char :=
  match s with
  | [] => (none, s)
  | e :: rest =>
    if e = 'e' ∨ e = 'E' then
      let (negative, rest) := match rest with
        | '-' :: rest => (true, rest)
        | '+' :: rest => (false, rest)
        | rest => (false, rest)
      match takeDigits rest with
      | ([], _) => (none, s)
      | (digits, rest) => (some (if negative then -(natOf digits : Int) else natOf digits), rest)
    else (none, s)

/-- The whole part of a number: a zero on its own, or digits that do not begin with one. -/
def takeWhole : List Char → Option (List Char × List Char)
  | '0' :: rest => some (['0'], rest)
  | s =>
    match takeDigits s with
    | ([], _) => none
    | found => some found

/-- A number after its sign. -/
def readNumber (negative : Bool) (s : List Char) : Except Fault (Json × List Char) :=
  match takeWhole s with
  | none => .error .malformed
  | some (whole, rest) =>
    let (fraction, rest) := takeFraction rest
    let (exponent, rest) := takeExponent rest
    if fraction.isEmpty && exponent.isNone then
      if Text.digitLimit < whole.length then .error (.tooLong whole.length)
      else .ok (.int (if negative then -(natOf whole : Int) else natOf whole), rest)
    else
      let power := exponent.getD 0 - fraction.length
      .ok (.double (.ofDecimal negative (natOf (whole ++ fraction)) power), rest)

/-! ## 3. Values -/

/-- A word at the front of a text. -/
def readWord (word : String) (j : Json) (s : List Char) : Except Fault (Json × List Char) :=
  if word.toList.isPrefixOf s then .ok (j, s.drop word.length) else .error .malformed

mutual

/-- A value at the very front of a text. -/
def readValue : Nat → List Char → Except Fault (Json × List Char)
  | 0, _ => .error .malformed
  | fuel + 1, s =>
    match s with
    | [] => .error .malformed
    | '\x22' :: rest => do
      let (text, rest) ← readStr rest
      return (.str text, rest)
    | '\x7b' :: rest =>
      match skipBlanks rest with
      | '\x7d' :: rest => .ok (.obj [], rest)
      | rest => do
        let (fields, rest) ← readFields fuel [] rest
        return (.obj fields, rest)
    | '[' :: rest =>
      match skipBlanks rest with
      | ']' :: rest => .ok (.arr [], rest)
      | rest => do
        let (items, rest) ← readItems fuel [] rest
        return (.arr items, rest)
    | 'n' :: _ => readWord "null" .null s
    | 't' :: _ => readWord "true" (.bool true) s
    | 'f' :: _ => readWord "false" (.bool false) s
    | 'N' :: _ => readWord "NaN" (.double .nan) s
    | 'I' :: _ => readWord "Infinity" (.double (.infinite false)) s
    | '-' :: 'I' :: _ => readWord "-Infinity" (.double (.infinite true)) s
    | '-' :: rest => readNumber true rest
    | _ => readNumber false s

/-- The items of a list up to its closing bracket, after those in `done`, the last one first. -/
def readItems : Nat → List Json → List Char → Except Fault (List Json × List Char)
  | 0, _, _ => .error .malformed
  | fuel + 1, done, s => do
    let (item, rest) ← readValue fuel s
    match skipBlanks rest with
    | ']' :: rest => .ok ((item :: done).reverse, rest)
    | ',' :: rest => readItems fuel (item :: done) (skipBlanks rest)
    | _ => .error .malformed

/-- The fields of an object up to its closing brace, after those in `done`. -/
def readFields : Nat → List (String × Json) → List Char →
    Except Fault (List (String × Json) × List Char)
  | 0, _, _ => .error .malformed
  | fuel + 1, done, s =>
    match s with
    | '\x22' :: rest => do
      let (key, rest) ← readStr rest
      match skipBlanks rest with
      | ':' :: rest =>
        let (value, rest) ← readValue fuel (skipBlanks rest)
        match skipBlanks rest with
        | '\x7d' :: rest => .ok (Assoc.put key value done, rest)
        | ',' :: rest => readFields fuel (Assoc.put key value done) (skipBlanks rest)
        | _ => .error .malformed
      | _ => .error .malformed
    | _ => .error .malformed

end

/-- A whole text: one value, with blanks around it. -/
def parse (s : List Char) : Except Fault Json := do
  let (j, rest) ← readValue (2 * s.length + 2) (skipBlanks s)
  if (skipBlanks rest).isEmpty then return j else .error .malformed

end Constructions.Json
