import Constructions.Term.Subst

/-!
# One pass of β-reduction

* `Expr.pass` -- contracts the outermost redexes of an expression, all at once, and looks no further
  into what a contraction produced.
* `Expr.passes` -- the results of several passes in turn.
-/

namespace Constructions

namespace Expr

/-- Contracts each redex that no other redex contains.  A sort, a variable and an unknown node stay
    as they are. -/
def pass : Expr → Expr
  | lam b A e => lam b A.pass e.pass
  | pi b A B => pi b A.pass B.pass
  | app (lam _ _ e) a => e.instantiate a
  | app f a => app f.pass a.pass
  | var r => var r
  | star => star
  | box => box
  | unknown => unknown

/-- The expressions after the first, second, … `n`-th pass. -/
def passes (e : Expr) : Nat → List Expr
  | 0 => []
  | n + 1 => e.pass :: e.pass.passes n

@[simp] theorem length_passes (e : Expr) (n : Nat) : (e.passes n).length = n := by
  induction n generalizing e with
  | zero => rfl
  | succ n ih => simp [passes, ih]

end Expr

end Constructions
