import Constructions.Typing.Run
import Constructions.Term.Pass

/-!
# Normalisation

Passes of β-reduction repeat until one changes nothing.

* `settle` -- the loop, with the number of changing passes so far and a cap on them.
* `reduce` -- with a given cap; a cap that is not positive is none.
* `normalize` -- with the cap of the configuration.
-/

namespace Constructions

/-- Continues from `current`, which `e` became after `steps` changing passes.  The answer is the
    result of the first pass that changes nothing.  A pass that does change something is given up
    once `steps` has reached a positive cap. -/
def settle (cap : Int) (e : Expr) : Nat → Nat → Expr → Run Expr
  | 0, _, _ => .starved
  | fuel + 1, steps, current =>
    let next := current.pass
    if next.alphaEq current then
      if steps = 0 then .ret next
      else do
        .note (.reduced e steps)
        return next
    else if 0 < cap ∧ cap ≤ steps then do
      .note (.gaveUp e steps)
      .fail (.reductionLimit e cap)
    else settle cap e fuel (steps + 1) next

/-- The expression that passes settle on, under a given cap. -/
def reduce (cap : Int) (fuel : Nat) (e : Expr) : Run Expr := settle cap e fuel 0 e

/-- The expression that passes settle on, under the configured cap, if it can be loaded. -/
def normalize (cap : Option Int) (fuel : Nat) (e : Expr) : Run Expr := do
  .note .capRead
  match cap with
  | some cap => reduce cap fuel e
  | none => .fail .noCap

end Constructions
