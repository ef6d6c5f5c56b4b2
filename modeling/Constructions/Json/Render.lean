import Constructions.Json.Basic
import Constructions.Text.Quoted

/-!
# Writing JSON

* `Json.escape` -- a character of a string; only the quote, the backslash and the control characters
  below U+0020 are escaped.
* `Json.Layout` -- on one line, or with every item on a line of its own.
* `Json.render` -- the text of a value.
-/

namespace Constructions.Json

/-! ## 1. Strings -/

/-- How a character is written inside a string. -/
def escape (c : Char) : String :=
  if c = '\x22' then "\\\""
  else if c = '\\' then "\\\\"
  else if c = '\n' then "\\n"
  else if c = '\r' then "\\r"
  else if c = '\t' then "\\t"
  else if c = '\x08' then "\\b"
  else if c = '\x0c' then "\\f"
  else if c.toNat < 0x20 then "\\u" ++ Text.hexText 4 c.toNat
  else c.toString

/-- The text of a string, with its quotes. -/
def renderStr (s : String) : String := "\"" ++ String.join (s.toList.map escape) ++ "\""

/-! ## 2. Layout -/

/-- Where the items of a list and the fields of an object stand. -/
inductive Layout
  /-- All on one line, a blank after each comma. -/
  | line
  /-- Each on its own line, `width` blanks further in for each level. -/
  | indented (width : Nat)
deriving DecidableEq, Repr

/-- The layout that an optional indent asks for; a negative one puts items on lines of their own
    without any. -/
def Layout.ofIndent : Option Int → Layout
  | none => line
  | some n => indented n.toNat

/-- What stands before the first item and after the last one, at a level. -/
def Layout.edge : Layout → Nat → String
  | line, _ => ""
  | indented width, level => "\n" ++ String.ofList (List.replicate (width * level) ' ')

/-- What stands between two items, at a level. -/
def Layout.separator : Layout → Nat → String
  | line, _ => ", "
  | indented width, level => "," ++ (indented width).edge level

/-- The items of a list or an object between brackets, `level` levels in. -/
def bracketed (layout : Layout) (level : Nat) (left right : String) (items : List String) :
    String :=
  if items.isEmpty then left ++ right
  else
    left ++ layout.edge (level + 1)
      ++ (layout.separator (level + 1)).intercalate items
      ++ layout.edge level ++ right

/-! ## 3. Values -/

/-- The text of a floating point number. -/
def renderDouble : Binary64 → String
  | .nan => "NaN"
  | .infinite negative => if negative then "-Infinity" else "Infinity"
  | x => x.text

mutual

/-- The text of a value, `level` levels in. -/
def renderAt (layout : Layout) (level : Nat) : Json → String
  | null => "null"
  | bool b => if b then "true" else "false"
  | int n => toString n
  | double x => renderDouble x
  | str s => renderStr s
  | arr items => bracketed layout level "[" "]" (renderItems layout (level + 1) items)
  | obj fields => bracketed layout level "\x7b" "\x7d" (renderFields layout (level + 1) fields)

/-- The texts of the items of a list. -/
def renderItems (layout : Layout) (level : Nat) : List Json → List String
  | [] => []
  | j :: rest => renderAt layout level j :: renderItems layout level rest

/-- The texts of the fields of an object. -/
def renderFields (layout : Layout) (level : Nat) : List (String × Json) → List String
  | [] => []
  | (k, j) :: rest =>
    (renderStr k ++ ": " ++ renderAt layout level j) :: renderFields layout level rest

end

/-- The text of a value. -/
def render (layout : Layout) (j : Json) : String := renderAt layout 0 j

end Constructions.Json
