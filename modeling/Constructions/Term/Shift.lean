import Constructions.Term.Expr

/-!
# Shifting

Moving an expression across binders adds a constant to each index that points outside of it.

* `Expr.shiftBy k c` -- adds `k` to every bound depth that is at least `c`, where `c` grows by one
  under each binder; total, on all of `Int`.
* `Expr.breach? k c` -- the first occurrence, in reading order, that `shiftBy k c` would leave below
  depth zero.
* `Expr.shift` -- `shiftBy` behind that check.
* `Expr.arrow` -- the type `A → B`, whose body stands under a binder that nothing refers to.
-/

namespace Constructions

namespace Expr

/-- Adds `k` to every bound depth of at least `c`; a binder raises `c` by one in its body. -/
def shiftBy (k : Int) : Int → Expr → Expr
  | _, var (.free x) => var (.free x)
  | c, var (.bound i) => if c ≤ i.depth then var (.bound (i.move k)) else var (.bound i)
  | c, lam b A e => lam b (A.shiftBy k c) (e.shiftBy k (c + 1))
  | c, pi b A e => pi b (A.shiftBy k c) (e.shiftBy k (c + 1))
  | c, app f a => app (f.shiftBy k c) (a.shiftBy k c)
  | _, star => star
  | _, box => box
  | _, unknown => unknown

/-- The display name of the first bound occurrence of depth at least `c` that a move by `k` takes
    below zero, reading parameter types before bodies and functions before arguments. -/
def breach? (k : Int) : Int → Expr → Option String
  | c, var (.bound i) => if c ≤ i.depth ∧ i.depth + k < 0 then some i.name else none
  | c, lam _ A e => (A.breach? k c).or (e.breach? k (c + 1))
  | c, pi _ A e => (A.breach? k c).or (e.breach? k (c + 1))
  | c, app f a => (f.breach? k c).or (a.breach? k c)
  | _, _ => none

/-- Shifts by `k` from depth `c` on.  A shift by zero changes nothing and always succeeds; any other
    fails on the first index that would end below zero. -/
def shift (k c : Int) (e : Expr) : Except Underflow Expr :=
  if k = 0 then .ok e
  else match e.breach? k c with
    | some x => .error ⟨x⟩
    | none => .ok (e.shiftBy k c)

@[simp] theorem shiftBy_zero (c : Int) (e : Expr) : e.shiftBy 0 c = e := by
  induction e generalizing c with
  | var r => cases r <;> simp [shiftBy]
  | lam b A e ihA ihe => simp [shiftBy, ihA, ihe]
  | pi b A B ihA ihB => simp [shiftBy, ihA, ihB]
  | app f a ihf iha => simp [shiftBy, ihf, iha]
  | star => rfl
  | box => rfl
  | unknown => rfl

/-- Moving deeper takes no index below zero. -/
theorem breach?_of_nonneg {k c : Int} (hk : 0 ≤ k) (hc : 0 ≤ c) (e : Expr) :
    e.breach? k c = none := by
  induction e generalizing c with
  | var r =>
    cases r with
    | free x => rfl
    | bound i =>
      simp only [breach?]
      rw [if_neg (by omega)]
  | lam b A e ihA ihe => simp [breach?, ihA hc, ihe (c := c + 1) (by omega)]
  | pi b A B ihA ihB => simp [breach?, ihA hc, ihB (c := c + 1) (by omega)]
  | app f a ihf iha => simp [breach?, ihf hc, iha hc]
  | star => rfl
  | box => rfl
  | unknown => rfl

@[simp] theorem shift_zero (c : Int) (e : Expr) : e.shift 0 c = .ok e := rfl

/-- Moving deeper always succeeds. -/
theorem shift_of_nonneg {k c : Int} (hk : 0 ≤ k) (hc : 0 ≤ c) (e : Expr) :
    e.shift k c = .ok (e.shiftBy k c) := by
  unfold shift
  split
  · rename_i h
    subst h
    simp
  · rw [breach?_of_nonneg hk hc]

/-- A shift that succeeds has moved the indices. -/
theorem shift_eq_ok {k c : Int} {e r : Expr} (h : e.shift k c = .ok r) : r = e.shiftBy k c := by
  unfold shift at h
  split at h
  · rename_i hk
    subst hk
    cases h
    rw [shiftBy_zero]
  · split at h
    · cases h
    · cases h
      rfl

/-- The type `A → B`: a Π with the anonymous binder, `B` moved under it. -/
def arrow (A B : Expr) : Expr := pi .anonymous A (B.shiftBy 1 0)

end Expr

end Constructions
