import Constructions.Term.Shift

/-!
# Substitution

Eliminating the binder at a depth replaces its occurrences and brings every deeper index one
binder closer.

* `Expr.substAt s l k` -- the substitution, `k` binders below the place where `s` was written, so
  that a copy of `s` is shifted by `k`; total.
* `Expr.strand? l` -- the first occurrence that would be brought below depth zero.
* `Expr.subst` -- the substitution behind that check.
* `Expr.instantiate` -- the substitution for the innermost binder, which never fails.
-/

namespace Constructions

namespace Expr

/-- Replaces the occurrences of depth `l` by `s` shifted over the `k` binders crossed so far, and
    lowers each deeper index by one. -/
def substAt (s : Expr) : Int → Nat → Expr → Expr
  | _, _, var (.free x) => var (.free x)
  | l, k, var (.bound i) =>
    if i.depth = l then s.shiftBy k 0
    else if l < i.depth then var (.bound (i.move (-1)))
    else var (.bound i)
  | l, k, lam b A e => lam b (substAt s l k A) (substAt s (l + 1) (k + 1) e)
  | l, k, pi b A e => pi b (substAt s l k A) (substAt s (l + 1) (k + 1) e)
  | l, k, app f a => app (substAt s l k f) (substAt s l k a)
  | _, _, star => star
  | _, _, box => box
  | _, _, unknown => unknown

/-- The display name of the first bound occurrence deeper than `l` that has no depth left to give.
    There is none when `l` is not negative. -/
def strand? : Int → Expr → Option String
  | l, var (.bound i) => if l < i.depth ∧ i.depth - 1 < 0 then some i.name else none
  | l, lam _ A e => (A.strand? l).or (e.strand? (l + 1))
  | l, pi _ A e => (A.strand? l).or (e.strand? (l + 1))
  | l, app f a => (f.strand? l).or (a.strand? l)
  | _, _ => none

/-- Replaces the occurrences of depth `l` by `s`; fails on the first index that would be brought
    below zero, which can only happen for a negative `l`. -/
def subst (e : Expr) (l : Int) (s : Expr) : Except Underflow Expr :=
  match e.strand? l with
  | some x => .error ⟨x⟩
  | none => .ok (substAt s l 0 e)

/-- An index deeper than one that is not negative can be lowered. -/
theorem strand?_of_nonneg {l : Int} (hl : 0 ≤ l) (e : Expr) : e.strand? l = none := by
  induction e generalizing l with
  | var r =>
    cases r with
    | free x => rfl
    | bound i =>
      simp only [strand?]
      rw [if_neg (by omega)]
  | lam b A e ihA ihe => simp [strand?, ihA hl, ihe (l := l + 1) (by omega)]
  | pi b A B ihA ihB => simp [strand?, ihA hl, ihB (l := l + 1) (by omega)]
  | app f a ihf iha => simp [strand?, ihf hl, iha hl]
  | star => rfl
  | box => rfl
  | unknown => rfl

/-- Substitution at a depth that is not negative always succeeds. -/
theorem subst_of_nonneg {l : Int} (hl : 0 ≤ l) (e s : Expr) :
    e.subst l s = .ok (substAt s l 0 e) := by
  unfold subst
  rw [strand?_of_nonneg hl]

/-- The body `e` of a binder with its variable replaced by `s`. -/
def instantiate (e s : Expr) : Expr := substAt s 0 0 e

end Expr

end Constructions
