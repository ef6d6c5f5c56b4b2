import Constructions.Decimal.Shortest

/-!
# JSON values

* `Json` -- a value; the fields of an object keep their order.
* `Json.get?` -- a field of an object.
-/

namespace Constructions

/-- A JSON value.  A number written without point and exponent is an integer of any size, any other
    one is a floating point number. -/
inductive Json
  | null
  | bool (b : Bool)
  | int (n : Int)
  | double (x : Binary64)
  | str (s : String)
  | arr (items : List Json)
  | obj (fields : List (String × Json))
deriving Repr, Inhabited

namespace Json

/-- A field of an object, none of any other value. -/
def get? (j : Json) (key : String) : Option Json :=
  match j with
  | obj fields => fields.lookup key
  | _ => none

end Json

end Constructions
