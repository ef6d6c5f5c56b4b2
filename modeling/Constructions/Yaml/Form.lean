import Constructions.Yaml.Timestamp

/-!
# The forms of nodes

A plain scalar is null, a truth value, a number, a time or a text, by the look of it; a tag can ask
for another form.

* `Yaml.Form` -- the forms.
* `Yaml.Form.ofTag?` -- the form that a tag names.
* `Yaml.Form.ofText` -- the form that a plain text has.
-/

namespace Constructions.Yaml

/-! ## 1. Forms and tags -/

/-- The forms of nodes.  `merge` and `default` are the two marks `<<` and `=`. -/
inductive Form
  | null
  | bool
  | int
  | float
  | time
  | merge
  | default
  | text
  | list
  | map
deriving DecidableEq, Repr

/-- What the tags of the forms begin with. -/
def coreTag : String := "tag:yaml.org,2002:"

/-- The form that a tag names; no other tag is known. -/
def Form.ofTag? (tag : String) : Option Form :=
  [("null", Form.null), ("bool", .bool), ("int", .int), ("float", .float), ("timestamp", .time),
    ("merge", .merge), ("value", .default), ("str", .text), ("seq", .list), ("map", .map)].lookup
    ((tag.dropPrefix? coreTag).elim "" toString)

/-! ## 2. How numbers are written -/

/-- A text without a sign in front. -/
def unsigned (s : List Char) : List Char := (Text.splitSign s).2

/-- A nonempty text of characters that satisfy `p`. -/
def all1 (p : Char → Bool) (s : List Char) : Bool := !s.isEmpty && s.all p

/-- A decimal digit or a low line. -/
def isDigitOrLine (c : Char) : Bool := c.isDigit || c = '_'

/-- Digits and low lines, a digit first. -/
def isGrouped : List Char → Bool
  | [] => false
  | c :: rest => c.isDigit && rest.all isDigitOrLine

/-- A place of a number in base sixty: one digit, or two up to `59`. -/
def isSixtieth : List Char → Bool
  | [c] => c.isDigit
  | [c, d] => '0' ≤ c && c ≤ '5' && d.isDigit
  | _ => false

/-- The parts of a text between colons. -/
def colonParts (s : List Char) : List (List Char) := s.splitOn ':'

/-- An integer: in base two, eight, ten, sixteen or sixty. -/
def isInt (s : List Char) : Bool :=
  match unsigned s with
  | '0' :: 'b' :: rest => all1 (fun c => c = '0' || c = '1' || c = '_') rest
  | '0' :: 'x' :: rest => all1 (fun c => (Text.hexDigit? c).isSome || c = '_') rest
  | '0' :: rest => rest.all fun c => ('0' ≤ c && c ≤ '7') || c = '_'
  | body =>
    match colonParts body with
    | first :: rest => isGrouped first && rest.all isSixtieth
    | [] => false

/-- An exponent with its sign, or nothing. -/
def isExponent : List Char → Bool
  | [] => true
  | e :: sign :: rest =>
    (e = 'e' || e = 'E') && (sign = '-' || sign = '+') && all1 Char.isDigit rest
  | _ => false

/-- The part of a number after its point. -/
def isFraction (s : List Char) : Bool := isExponent (s.dropWhile isDigitOrLine)

/-- A floating point number: with a point, and after the point perhaps an exponent; or in base sixty
    with a point in the last place; or infinite, or not a number. -/
def isFloat (s : List Char) : Bool :=
  let body := unsigned s
  let (whole, point) := body.span (· ≠ '.')
  match point with
  | [] => false
  | _ :: rest =>
    (isGrouped whole && isFraction rest)
      || (whole.isEmpty && body = s && rest.head?.any Char.isDigit && isFraction rest)
      || (whole.isEmpty && ["inf", "Inf", "INF"].contains (String.ofList rest))
      || (whole.isEmpty && body = s && ["nan", "NaN", "NAN"].contains (String.ofList rest))
      || (rest.all isDigitOrLine && match colonParts whole with
        | first :: second :: more => isGrouped first && (second :: more).all isSixtieth
        | _ => false)

/-! ## 3. The form of a text -/

/-- The words for truth values, in lower case. -/
def truthWords : List (String × Bool) :=
  [("yes", true), ("no", false), ("true", true), ("false", false), ("on", true), ("off", false)]

/-- A word in lower case, with a capital or in capitals. -/
def isWritten (word : String) (s : String) : Bool :=
  s = word || s = word.capitalize || s = word.toUpper

/-- A text without the line end that may stand at its end. -/
def withoutLastBreak (s : String) : String :=
  if s.endsWith "\n" then String.ofList s.toList.dropLast else s

/-- The form of a plain text.  One line end behind it does not count. -/
def Form.ofText (s : String) : Form :=
  let s := withoutLastBreak s
  if s = "" || s = "~" || isWritten "null" s then .null
  else if truthWords.any (isWritten ·.1 s) then .bool
  else if isFloat s.toList then .float
  else if isInt s.toList then .int
  else if isStamp s.toList then .time
  else if s = "<<" then .merge
  else if s = "=" then .default
  else .text

end Constructions.Yaml
