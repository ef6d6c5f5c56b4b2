import Constructions.Proofs.Cap
import Constructions.Proofs.Conversion
import Constructions.Proofs.Nameless.Standard

/-!
# Normalisation finds normal forms

Passes contract outermost redexes only, and leave what diverges in an argument or a parameter type
for later, when it may be gone.

* `exists_settle_yields` -- the loop ends as soon as a pass changes nothing, unless the cap ends it
  before.
* `reduce_normalises` -- **an expression that reduces to a normal form in any way is normalised to
  it**, without a cap and under every cap that is large enough.
-/

namespace Constructions

open Run Relation

/-- The loop ends when passes settle within what is left of the cap. -/
theorem exists_settle_yields {cap : Int} {e : Expr} {n steps : Nat} {current : Expr}
    (hcap : cap ≤ 0 ∨ (steps : Int) + n ≤ cap)
    (h : (Expr.pass^[n] current).pass.alphaEq (Expr.pass^[n] current) = true) :
    ∃ r, (settle cap e (n + 1) steps current).Yields r := by
  have hstill : current.StillAfter n := by
    rw [Expr.StillAfter, Function.iterate_succ_apply']
    exact h
  obtain ⟨m, hle, hm⟩ := hstill.exists_isLeast
  exact ⟨_, _, settle_of_isLeast hm (by omega) (by omega)⟩

/-- **An expression that reduces to a normal form is normalised to it**, by a number of passes that
    no cap at all or a large enough one allows. -/
theorem reduce_normalises {e n : Expr} (h : ReflTransGen Expr.Contracts e n)
    (hn : n.hasRedex = false) :
    ∃ (bound : Int) (fuel : Nat), ∀ cap, cap ≤ 0 ∨ bound ≤ cap →
      ∃ r, (reduce cap fuel e).Yields r ∧ r.alphaEq n = true := by
  have hnormal : n.erase.Normal := Expr.normal_of_hasRedex hn
  have hsteps : e.erase.Steps n.erase := h.lift Expr.erase fun _ _ hc => hc.step
  obtain ⟨k, hk⟩ := Nameless.exists_iterate_pass hnormal hsteps
  refine ⟨k, k + 1, fun cap hcap => ?_⟩
  have hsettled : (Expr.pass^[k] e).pass.alphaEq (Expr.pass^[k] e) = true := by
    rw [Expr.alphaEq_iff, Expr.erase_pass, Expr.erase_iterate_pass, hk, hnormal.pass_eq]
  have hleft : cap ≤ 0 ∨ ((0 : Nat) : Int) + k ≤ cap := by omega
  obtain ⟨r, hr⟩ := exists_settle_yields (e := e) hleft hsettled
  have heq : r.erase = n.erase := (reduce_yields hr).unique ⟨k, hk.symm, hnormal.pass_eq⟩
  exact ⟨r, hr, Expr.alphaEq_iff.mpr heq⟩

/-- `(λx:* . (λy:* . c) x) (w w)` with `w = λx:* . x x x`, whose argument has no normal form. -/
theorem reduce_normalises_discarded :
    let x : Expr := .var (.bound ⟨0, "x"⟩)
    let w : Expr := .lam (.named "x") .star (.app (.app x x) x)
    let c : Expr := .var (.free "c")
    let e : Expr := .app (.lam (.named "x") .star (.app (.lam (.named "y") .star c) x)) (.app w w)
    ReflTransGen Expr.Contracts e c ∧ c.hasRedex = false
      ∧ ∃ (bound : Int) (fuel : Nat), ∀ cap, cap ≤ 0 ∨ bound ≤ cap →
          ∃ r, (reduce cap fuel e).Yields r ∧ r.alphaEq c = true := by
  intro x w c e
  -- the inner redex first, which is not the order of the passes
  have hinner : Expr.Contracts e (.app (.lam (.named "x") .star c) (.app w w)) :=
    .appFun _ (.lamBody _ _ (.beta _ _ rfl))
  have houter : Expr.Contracts (.app (.lam (.named "x") .star c) (.app w w)) c := .beta _ _ rfl
  have h : ReflTransGen Expr.Contracts e c := .head hinner (.single houter)
  exact ⟨h, rfl, reduce_normalises h rfl⟩

end Constructions
