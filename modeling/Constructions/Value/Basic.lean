import Constructions.Assoc
import Constructions.Json.Basic
import Constructions.Text.Digit
import Constructions.Text.Quoted
import Constructions.Value.Moment

/-!
# Document values

What a configuration document holds, whichever format it was written in.

* `Value` -- the values.
* `Value.sameKey` -- when two values are one key of a mapping: numbers and truth values by what they
  count, and what is not a number is a single key.
* `Value.ofJson` -- the value of a JSON document.
* `Value.literal` -- the form in which a value is shown in messages; `Value.isShowable` -- whether
  it can be shown.
-/

namespace Constructions

/-- A value of a document.  The entries of a mapping stand in order, no key twice. -/
inductive Value
  | null
  | bool (b : Bool)
  | int (n : Int)
  | double (x : Binary64)
  | text (s : String)
  | date (d : Date)
  | moment (t : Moment)
  | list (items : List Value)
  | map (entries : List (Value × Value))
deriving Repr, Inhabited

namespace Value

/-! ## 1. Keys -/

/-- The integer that a value counts as. -/
def count? : Value → Option Int
  | bool b => some (if b then 1 else 0)
  | int n => some n
  | double x => x.integer?
  | _ => none

/-- Whether two values are the same key.  A collection is no key at all. -/
def sameKey (v w : Value) : Bool :=
  match v.count?, w.count? with
  | some m, some n => m == n
  | none, none =>
    match v, w with
    | null, null => true
    | double x, double y => x == y
    | text s, text t => s == t
    | date d, date e => d == e
    | moment t, moment u => t.same u
    | _, _ => false
  | _, _ => false

instance : BEq Value := ⟨sameKey⟩

/-! ## 2. JSON documents -/

mutual

/-- The value of a JSON document. -/
def ofJson : Json → Value
  | .null => null
  | .bool b => bool b
  | .int n => int n
  | .double x => double x
  | .str s => text s
  | .arr items => list (ofJsonItems items)
  | .obj fields => map (ofJsonFields fields)

/-- The values of the items of a list. -/
def ofJsonItems : List Json → List Value
  | [] => []
  | j :: rest => ofJson j :: ofJsonItems rest

/-- The entries for the fields of an object. -/
def ofJsonFields : List (String × Json) → List (Value × Value)
  | [] => []
  | (k, j) :: rest => (text k, ofJson j) :: ofJsonFields rest

end

/-! ## 3. Literals -/

mutual

/-- A value as messages show it. -/
def literal : Value → String
  | null => "None"
  | bool b => if b then "True" else "False"
  | int n => toString n
  | double x => x.text
  | text s => Text.quoted s
  | date d => d.literal
  | moment t => t.literal
  | list items => "[" ++ ", ".intercalate (itemLiterals items) ++ "]"
  | map entries => "\x7b" ++ ", ".intercalate (entryLiterals entries) ++ "\x7d"

/-- The items of a list as messages show them. -/
def itemLiterals : List Value → List String
  | [] => []
  | v :: rest => v.literal :: itemLiterals rest

/-- The entries of a mapping as messages show them. -/
def entryLiterals : List (Value × Value) → List String
  | [] => []
  | (k, v) :: rest => (k.literal ++ ": " ++ v.literal) :: entryLiterals rest

end

mutual

/-- Whether a value can be shown: no integer in it has more digits than the limit. -/
def isShowable : Value → Bool
  | int n => n.natAbs < Nat.pow 10 Text.digitLimit
  | list items => itemsShowable items
  | map entries => entriesShowable entries
  | _ => true

/-- Whether all items of a list can be shown. -/
def itemsShowable : List Value → Bool
  | [] => true
  | v :: rest => v.isShowable && itemsShowable rest

/-- Whether all entries of a mapping can be shown. -/
def entriesShowable : List (Value × Value) → Bool
  | [] => true
  | (k, v) :: rest => k.isShowable && v.isShowable && entriesShowable rest

end

end Value

end Constructions
