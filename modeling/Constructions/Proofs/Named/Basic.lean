import Mathlib.Data.Fintype.EquivFin

/-!
# Terms with names

Terms as they are written on paper: every variable, bound or free, is known by its name.

* `Named` -- the terms; an arrow is a form of its own.
* `Named.Substitutes x s t r` -- `r` is a result of the capture-avoiding substitution of `s` for `x`
  in `t`, as rules.  A binder that would capture a name of `s` is renamed, to any name that is
  fresh; results differ in that choice only.
* `Named.Alpha` -- equality up to the renaming of bound names.

Main statement: `exists_substitutes`, every substitution has a result.
-/

namespace Constructions

/-- What a binder makes of its body: a function or the type of functions. -/
inductive Quantifier
  | lam
  | pi
deriving DecidableEq, Repr

/-- A term with names. -/
inductive Named
  | var (x : String)
  /-- `λx : A . t` or `Πx : A . t` -/
  | bind (q : Quantifier) (x : String) (A t : Named)
  /-- `A -> B` -/
  | arrow (A B : Named)
  | app (t s : Named)
  | star
  | box
deriving DecidableEq, Repr

namespace Named

/-! ## 1. Free names -/

/-- The names that occur free, in reading order. -/
def free : Named → List String
  | var x => [x]
  | bind _ x A t => A.free ++ t.free.filter (· ≠ x)
  | arrow A B => A.free ++ B.free
  | app t s => t.free ++ s.free
  | star => []
  | box => []

theorem mem_free_bind {q : Quantifier} {x y : String} {A t : Named} :
    y ∈ (bind q x A t).free ↔ y ∈ A.free ∨ y ∈ t.free ∧ y ≠ x := by
  simp [free]

theorem not_mem_free_body {q : Quantifier} {x y : String} {A t : Named}
    (h : y ∉ (bind q x A t).free) (hy : y ≠ x) : y ∉ t.free :=
  fun ht => h (mem_free_bind.mpr (.inr ⟨ht, hy⟩))

/-- There is a name outside of any list. -/
theorem exists_fresh (l : List String) : ∃ z, z ∉ l := by
  obtain ⟨z, hz⟩ := Infinite.exists_notMem_finset l.toFinset
  exact ⟨z, by simpa using hz⟩

/-! ## 2. Substitution -/

/-- `r` is a result of substituting `s` for the free occurrences of `x` in `t`, without capture. -/
inductive Substitutes : (x : String) → (s t r : Named) → Prop
  | here {x : String} {s : Named} : Substitutes x s (var x) s
  | other {x y : String} {s : Named} (hy : y ≠ x) : Substitutes x s (var y) (var y)
  /-- The body has no occurrence to be replaced: the binder is the name itself, or there is none. -/
  | bound {x y : String} {s A A' t : Named} (q : Quantifier) (ht : y = x ∨ x ∉ t.free)
      (hA : Substitutes x s A A') : Substitutes x s (bind q y A t) (bind q y A' t)
  /-- The binder captures nothing. -/
  | under {x y : String} {s A A' t t' : Named} (q : Quantifier) (hy : y ≠ x) (hs : y ∉ s.free)
      (hA : Substitutes x s A A') (ht : Substitutes x s t t') :
      Substitutes x s (bind q y A t) (bind q y A' t')
  /-- The binder is renamed first. -/
  | renamed {x y z : String} {s A A' t u t' : Named} (q : Quantifier) (hz : z ≠ x)
      (hs : z ∉ s.free) (hzt : z ∉ t.free) (hA : Substitutes x s A A')
      (hu : Substitutes y (var z) t u) (ht : Substitutes x s u t') :
      Substitutes x s (bind q y A t) (bind q z A' t')
  | arrow {x : String} {s A A' B B' : Named} (hA : Substitutes x s A A')
      (hB : Substitutes x s B B') : Substitutes x s (arrow A B) (arrow A' B')
  | app {x : String} {s t t' u u' : Named} (ht : Substitutes x s t t') (hu : Substitutes x s u u') :
      Substitutes x s (app t u) (app t' u')
  | star {x : String} {s : Named} : Substitutes x s star star
  | box {x : String} {s : Named} : Substitutes x s box box

/-- The number of nodes. -/
def size : Named → Nat
  | bind _ _ A t => A.size + t.size + 1
  | arrow A B => A.size + B.size + 1
  | app t s => t.size + s.size + 1
  | _ => 1

/-- A name put for a name keeps the size. -/
theorem Substitutes.size_eq {x : String} {s t r : Named} (h : Substitutes x s t r)
    (hs : s.size = 1) : r.size = t.size := by
  induction h with
  | here => exact hs
  | bound q ht hA ihA => simp only [size, ihA hs]
  | under q hy hsy hA ht ihA iht => simp only [size, ihA hs, iht hs]
  | renamed q hz hsz hzt hA hu ht ihA ihu iht => simp only [size, ihA hs, iht hs, ihu rfl]
  | arrow hA hB ihA ihB => simp only [size, ihA hs, ihB hs]
  | app ht hu iht ihu => simp only [size, iht hs, ihu hs]
  | _ => rfl

/-- **Every substitution has a result.** -/
theorem exists_substitutes (x : String) (s t : Named) : ∃ r, Substitutes x s t r := by
  -- by recursion on the size: a renamed body is no part of the term
  cases t with
  | var y =>
    by_cases hy : y = x
    · exact ⟨s, hy ▸ .here⟩
    · exact ⟨var y, .other hy⟩
  | bind q y A t =>
    obtain ⟨A', hA⟩ := exists_substitutes x s A
    by_cases hy : y = x
    · exact ⟨_, .bound q (.inl hy) hA⟩
    by_cases hs : y ∈ s.free
    · obtain ⟨z, hz⟩ := exists_fresh (x :: (s.free ++ t.free))
      simp only [List.mem_cons, List.mem_append, not_or] at hz
      obtain ⟨u, hu⟩ := exists_substitutes y (var z) t
      have hsize : u.size = t.size := hu.size_eq rfl
      obtain ⟨t', ht⟩ := exists_substitutes x s u
      exact ⟨_, .renamed q hz.1 hz.2.1 hz.2.2 hA hu ht⟩
    · obtain ⟨t', ht⟩ := exists_substitutes x s t
      exact ⟨_, .under q hy hs hA ht⟩
  | arrow A B =>
    obtain ⟨A', hA⟩ := exists_substitutes x s A
    obtain ⟨B', hB⟩ := exists_substitutes x s B
    exact ⟨_, .arrow hA hB⟩
  | app t u =>
    obtain ⟨t', ht⟩ := exists_substitutes x s t
    obtain ⟨u', hu⟩ := exists_substitutes x s u
    exact ⟨_, .app ht hu⟩
  | star => exact ⟨_, .star⟩
  | box => exact ⟨_, .box⟩
termination_by t.size
decreasing_by all_goals simp only [size]; omega

/-! ## 3. Renaming of bound names -/

/-- **α-equivalence**: the least congruence in which a binder may take another name, unless that
    name occurs free in the body, and in which an arrow is a Π whose name does not occur. -/
inductive Alpha : Named → Named → Prop
  | refl (t : Named) : Alpha t t
  | symm {t u : Named} (h : Alpha t u) : Alpha u t
  | trans {t u v : Named} (h : Alpha t u) (k : Alpha u v) : Alpha t v
  | rename {x y : String} {A t t' : Named} (q : Quantifier) (hy : y ∉ t.free)
      (ht : Substitutes x (var y) t t') : Alpha (bind q x A t) (bind q y A t')
  | arrowPi {y : String} {A B : Named} (hy : y ∉ B.free) : Alpha (arrow A B) (bind .pi y A B)
  | bind {A A' t t' : Named} (q : Quantifier) (x : String) (hA : Alpha A A') (ht : Alpha t t') :
      Alpha (bind q x A t) (bind q x A' t')
  | arrow {A A' B B' : Named} (hA : Alpha A A') (hB : Alpha B B') :
      Alpha (arrow A B) (arrow A' B')
  | app {t t' s s' : Named} (ht : Alpha t t') (hs : Alpha s s') : Alpha (app t s) (app t' s')

end Named

end Constructions
