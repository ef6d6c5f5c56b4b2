/-!
# Names, indices and binders

A variable occurrence is either *free*, known by its name, or *bound*, known by the number of
binders between it and its own.  The name of a bound occurrence is kept for display only.

* `Idx` -- a depth with a display name; `Idx.shifted` moves the depth and refuses to leave it
  below zero.
* `Ref` -- a free or bound occurrence; `Ref.same` compares free ones by name and bound ones by
  depth.
* `Binder` -- a named binder, or the anonymous one that an arrow type uses.

Depths are integers: an index may be written with a negative depth, and only a *move* is checked.
-/

namespace Constructions

/-! ## 1. Indices -/

/-- A de Bruijn index: `depth` binders lie between the occurrence and its own binder, and `name`
    is what is displayed. -/
structure Idx where
  depth : Int
  name : String
deriving DecidableEq, Repr, Inhabited

/-- An index was to be moved below depth zero; `name` is its display name. -/
structure Underflow where
  name : String
deriving DecidableEq, Repr

/-- The text of the failure. -/
def Underflow.message (u : Underflow) : String :=
  "index of '" ++ u.name ++ "' cannot go below depth 0"

namespace Idx

/-- The index of the innermost binder, displayed as `x`. -/
def innermost (x : String) : Idx := ⟨0, x⟩

/-- The same binder seen from one binder further in. -/
def inc (i : Idx) : Idx := ⟨i.depth + 1, i.name⟩

/-- The depth moved by `k`, without a check. -/
def move (i : Idx) (k : Int) : Idx := ⟨i.depth + k, i.name⟩

/-- The depth moved by `k`, refused when it would end below zero. -/
def shifted (i : Idx) (k : Int) : Except Underflow Idx :=
  if i.depth + k < 0 then .error ⟨i.name⟩ else .ok (i.move k)

/-- The same binder seen from one binder further out. -/
def dec (i : Idx) : Except Underflow Idx := i.shifted (-1)

/-- A move that ends at zero or above succeeds. -/
theorem shifted_of_nonneg {i : Idx} {k : Int} (h : 0 ≤ i.depth + k) :
    i.shifted k = .ok (i.move k) := by
  unfold shifted
  rw [if_neg (by omega)]

/-- A move that ends below zero fails with the name of the index. -/
theorem shifted_of_neg {i : Idx} {k : Int} (h : i.depth + k < 0) :
    i.shifted k = .error ⟨i.name⟩ := by
  unfold shifted
  rw [if_pos h]

@[simp] theorem move_zero (i : Idx) : i.move 0 = i := by
  cases i
  simp [move]

/-- Indices are ordered by depth; the name takes no part. -/
def order (i j : Idx) : Ordering := compare i.depth j.depth

end Idx

/-! ## 2. Occurrences -/

/-- A variable occurrence. -/
inductive Ref
  /-- Known by name, resolved by a context. -/
  | free (x : String)
  /-- Known by depth, resolved by an enclosing binder. -/
  | bound (i : Idx)
deriving DecidableEq, Repr, Inhabited

namespace Ref

/-- The displayed name. -/
def name : Ref → String
  | free x => x
  | bound i => i.name

/-- Free occurrences are the same by name, bound ones by depth. -/
def same : Ref → Ref → Bool
  | free x, free y => x == y
  | bound i, bound j => i.depth == j.depth
  | _, _ => false

@[simp] theorem same_refl (r : Ref) : r.same r = true := by
  cases r <;> simp [same]

theorem same_symm {r s : Ref} (h : r.same s = true) : s.same r = true := by
  cases r <;> cases s <;> simp_all [same]

theorem same_trans {r s t : Ref} (h : r.same s = true) (k : s.same t = true) :
    r.same t = true := by
  cases r <;> cases s <;> cases t <;> simp_all [same]

end Ref

/-! ## 3. Binders -/

/-- What a λ or a Π binds.  The anonymous binder displays as `_`, captures no name and adds nothing
    to a context; a binder *named* `_` is an ordinary one. -/
inductive Binder
  | named (x : String)
  | anonymous
deriving DecidableEq, Repr, Inhabited

namespace Binder

/-- The displayed name. -/
def name : Binder → String
  | named x => x
  | anonymous => "_"

/-- A binder captures the free occurrences of its own name; the anonymous one captures none. -/
def captures : Binder → String → Bool
  | named x, y => x == y
  | anonymous, _ => false

end Binder

end Constructions
