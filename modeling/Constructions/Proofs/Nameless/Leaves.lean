import Constructions.Proofs.Nameless.Reduction

/-!
# Leaves of a tree

Reduction copies and drops the parts of a tree and moves its indices; it makes no other leaf.

* `Nameless.Every p e` -- every leaf of `e` other than an index satisfies `p`.
* `Every.subst`, `Every.inst`, `Every.steps` -- substitution and reduction keep this.
* `Expr.parts` -- an expression and all expressions inside it; `not_mem_parts_iff_every` -- which
  constants are among them can be told from the tree without names.
-/

namespace Constructions

namespace Nameless

/-! ## 1. Leaves of a tree -/

/-- Every leaf satisfies `p`, indices aside. -/
def Every (p : Nameless → Prop) : Nameless → Prop
  | idx _ => True
  | lam A e => A.Every p ∧ e.Every p
  | pi A B => A.Every p ∧ B.Every p
  | app f a => f.Every p ∧ a.Every p
  | e => p e

variable {p : Nameless → Prop}

theorem Every.rename {e : Nameless} (h : e.Every p) (ξ : Nat → Nat) : (e.rename ξ).Every p := by
  induction e generalizing ξ with
  | idx n => trivial
  | lam A e ihA ihe => exact ⟨ihA h.1 ξ, ihe h.2 (upRen ξ)⟩
  | pi A B ihA ihB => exact ⟨ihA h.1 ξ, ihB h.2 (upRen ξ)⟩
  | app f a ihf iha => exact ⟨ihf h.1 ξ, iha h.2 ξ⟩
  | _ => exact h

theorem Every.subst {σ : Nat → Nameless} (hσ : ∀ n, (σ n).Every p) {e : Nameless}
    (h : e.Every p) : (e.subst σ).Every p := by
  have hup {σ : Nat → Nameless} (hσ : ∀ n, (σ n).Every p) : ∀ n, (up σ n).Every p := by
    intro n
    cases n with
    | zero => trivial
    | succ n => exact (hσ n).rename Nat.succ
  induction e generalizing σ with
  | idx n => exact hσ n
  | lam A e ihA ihe => exact ⟨ihA hσ h.1, ihe (hup hσ) h.2⟩
  | pi A B ihA ihB => exact ⟨ihA hσ h.1, ihB (hup hσ) h.2⟩
  | app f a ihf iha => exact ⟨ihf hσ h.1, iha hσ h.2⟩
  | _ => exact h

theorem Every.inst {e a : Nameless} (he : e.Every p) (ha : a.Every p) : (e.inst a).Every p := by
  refine he.subst fun n => ?_
  cases n with
  | zero => exact ha
  | succ n => trivial

theorem Every.step {e f : Nameless} (h : e.Every p) (hs : Step e f) : f.Every p := by
  induction hs with
  | beta A e a => exact h.1.2.inst h.2
  | lamType _ _ ih | piType _ _ ih | appFun _ _ ih => exact ⟨ih h.1, h.2⟩
  | lamBody _ _ ih | piBody _ _ ih | appArg _ _ ih => exact ⟨h.1, ih h.2⟩

/-- **Reduction brings no leaves.** -/
theorem Every.steps {e f : Nameless} (h : e.Every p) (hs : Steps e f) : f.Every p := by
  induction hs with
  | refl => exact h
  | tail _ hs ih => exact ih.step hs

end Nameless

/-! ## 2. Parts of an expression -/

namespace Expr

/-- The expression and every expression inside it, outside first. -/
def parts : Expr → List Expr
  | lam b A e => lam b A e :: (A.parts ++ e.parts)
  | pi b A B => pi b A B :: (A.parts ++ B.parts)
  | app f a => app f a :: (f.parts ++ a.parts)
  | e => [e]

/-- A part of a node with two children is the node, or a part of one of them. -/
theorem mem_parts_node {p e A B : Expr} :
    p ∈ e :: (A.parts ++ B.parts) ↔ p = e ∨ p ∈ A.parts ∨ p ∈ B.parts := by
  rw [List.mem_cons, List.mem_append]

/-- A leaf that no operation looks into. -/
def IsConstant : Expr → Prop
  | star | box | unknown => True
  | _ => False

/-- A constant is no part of an expression exactly when it is no leaf of the tree without names. -/
theorem not_mem_parts_iff_every {c e : Expr} (hc : c.IsConstant) :
    c ∉ e.parts ↔ e.erase.Every (· ≠ c.erase) := by
  cases c with
  | star | box | unknown =>
    induction e with
    | var r =>
      cases r with
      | free x => simp [parts, erase, Nameless.Every]
      | bound i =>
        rcases Nameless.ofDepth_cases i.depth with ⟨n, hn⟩ | ⟨n, hn⟩ <;>
          simp [parts, erase, hn, Nameless.Every]
    | lam b A e ihA ihe | pi b A e ihA ihe | app A e ihA ihe =>
      simp only [parts, mem_parts_node, not_or, ihA, ihe]
      exact and_iff_right Expr.noConfusion
    | _ => simp [parts, erase, Nameless.Every]
  | _ => exact hc.elim

/-- A move of indices, by any distance, leaves every constant where it is. -/
theorem mem_parts_of_shiftBy {c : Expr} (hc : c.IsConstant) {k cutoff : Int} {e : Expr}
    (h : c ∈ (e.shiftBy k cutoff).parts) : c ∈ e.parts := by
  induction e generalizing cutoff with
  | var r =>
    cases r with
    | free x => exact h
    | bound i =>
      rw [shiftBy] at h
      split at h <;> exact (List.mem_singleton.mp h ▸ hc : IsConstant (var _)).elim
  | lam b A e ihA ihe | pi b A e ihA ihe | app A e ihA ihe =>
    rcases mem_parts_node.mp h with rfl | h | h
    · exact hc.elim
    · exact mem_parts_node.mpr (.inr (.inl (ihA h)))
    · exact mem_parts_node.mpr (.inr (.inr (ihe h)))
  | _ => exact h

end Expr

end Constructions
