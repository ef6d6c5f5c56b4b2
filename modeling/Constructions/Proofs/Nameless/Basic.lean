/-!
# Terms without names

The trees that remain of expressions when displayed names are forgotten.  A bound occurrence is the
number of binders between it and its own; a free occurrence keeps its name, because a context
resolves it.

* `Nameless` -- the trees.
* `Nameless.rename`, `Nameless.subst` -- the action of a map from indices to indices, and from
  indices to trees, on all indices at once.
* `Nameless.lift`, `Nameless.inst` -- the two instances that typing uses: one binder further in, and
  the body of a binder with its variable replaced.

The composition laws (`rename_rename`, `subst_rename`, `rename_subst`, `subst_subst`) say that both
actions follow composition of maps; every law about `lift` and `inst` is a case of them.
-/

namespace Constructions

/-- An expression with every displayed name forgotten. -/
inductive Nameless
  /-- A bound occurrence, `n` binders away from its own. -/
  | idx (n : Nat)
  /-- A bound occurrence of the negative depth `-(n + 1)`, which no binder reaches. -/
  | stray (n : Nat)
  /-- A free occurrence. -/
  | const (x : String)
  | lam (A e : Nameless)
  | pi (A B : Nameless)
  | app (f a : Nameless)
  | star
  | box
  | unknown
deriving DecidableEq, Repr

namespace Nameless

/-! ## 1. Renaming -/

/-- A map of indices taken under a binder. -/
def upRen (ξ : Nat → Nat) : Nat → Nat
  | 0 => 0
  | n + 1 => ξ n + 1

/-- Every index sent through `ξ`. -/
def rename (ξ : Nat → Nat) : Nameless → Nameless
  | idx n => idx (ξ n)
  | stray n => stray n
  | const x => const x
  | lam A e => lam (A.rename ξ) (e.rename (upRen ξ))
  | pi A B => pi (A.rename ξ) (B.rename (upRen ξ))
  | app f a => app (f.rename ξ) (a.rename ξ)
  | star => star
  | box => box
  | unknown => unknown

/-- One binder further in. -/
def lift (e : Nameless) : Nameless := e.rename Nat.succ

/-- `k` binders further in. -/
def liftN (k : Nat) (e : Nameless) : Nameless := e.rename (· + k)

@[simp] theorem upRen_zero (ξ : Nat → Nat) : upRen ξ 0 = 0 := rfl

@[simp] theorem upRen_succ (ξ : Nat → Nat) (n : Nat) : upRen ξ (n + 1) = ξ n + 1 := rfl

theorem upRen_comp (ξ ζ : Nat → Nat) : upRen (ζ ∘ ξ) = upRen ζ ∘ upRen ξ := by
  funext n
  cases n <;> rfl

theorem upRen_id : upRen id = id := by
  funext n
  cases n <;> rfl

theorem rename_id (e : Nameless) : e.rename id = e := by
  induction e with
  | idx n => rfl
  | stray n => rfl
  | const x => rfl
  | lam A e ihA ihe => rw [rename, upRen_id, ihA, ihe]
  | pi A B ihA ihB => rw [rename, upRen_id, ihA, ihB]
  | app f a ihf iha => rw [rename, ihf, iha]
  | star => rfl
  | box => rfl
  | unknown => rfl

theorem rename_rename (ξ ζ : Nat → Nat) (e : Nameless) :
    (e.rename ξ).rename ζ = e.rename (ζ ∘ ξ) := by
  induction e generalizing ξ ζ with
  | idx n => rfl
  | stray n => rfl
  | const x => rfl
  | lam A e ihA ihe => simp only [rename, ihA, ihe, upRen_comp]
  | pi A B ihA ihB => simp only [rename, ihA, ihB, upRen_comp]
  | app f a ihf iha => simp only [rename, ihf, iha]
  | star => rfl
  | box => rfl
  | unknown => rfl

theorem liftN_zero (e : Nameless) : e.liftN 0 = e := rename_id e

theorem liftN_succ (k : Nat) (e : Nameless) : e.liftN (k + 1) = (e.liftN k).lift := by
  unfold liftN lift
  rw [rename_rename]
  rfl

/-- Renaming under a binder passes a lifted tree by. -/
theorem rename_lift (ξ : Nat → Nat) (e : Nameless) :
    e.lift.rename (upRen ξ) = (e.rename ξ).lift := by
  unfold lift
  rw [rename_rename, rename_rename]
  rfl

/-! ## 2. Substitution -/

/-- A map from indices to trees taken under a binder. -/
def up (σ : Nat → Nameless) : Nat → Nameless
  | 0 => idx 0
  | n + 1 => (σ n).lift

/-- Every index replaced by its image under `σ`. -/
def subst (σ : Nat → Nameless) : Nameless → Nameless
  | idx n => σ n
  | stray n => stray n
  | const x => const x
  | lam A e => lam (A.subst σ) (e.subst (up σ))
  | pi A B => pi (A.subst σ) (B.subst (up σ))
  | app f a => app (f.subst σ) (a.subst σ)
  | star => star
  | box => box
  | unknown => unknown

/-- `a` for the innermost index, every other one binder closer. -/
def single (a : Nameless) : Nat → Nameless
  | 0 => a
  | n + 1 => idx n

/-- The body `e` of a binder with `a` for its variable. -/
def inst (e a : Nameless) : Nameless := e.subst (single a)

@[simp] theorem up_zero (σ : Nat → Nameless) : up σ 0 = idx 0 := rfl

@[simp] theorem up_succ (σ : Nat → Nameless) (n : Nat) : up σ (n + 1) = (σ n).lift := rfl

theorem up_idx : up idx = idx := by
  funext n
  cases n <;> rfl

theorem subst_idx (e : Nameless) : e.subst idx = e := by
  induction e with
  | idx n => rfl
  | stray n => rfl
  | const x => rfl
  | lam A e ihA ihe => rw [subst, up_idx, ihA, ihe]
  | pi A B ihA ihB => rw [subst, up_idx, ihA, ihB]
  | app f a ihf iha => rw [subst, ihf, iha]
  | star => rfl
  | box => rfl
  | unknown => rfl

theorem up_comp_upRen (σ : Nat → Nameless) (ξ : Nat → Nat) : up σ ∘ upRen ξ = up (σ ∘ ξ) := by
  funext n
  cases n <;> rfl

theorem subst_rename (σ : Nat → Nameless) (ξ : Nat → Nat) (e : Nameless) :
    (e.rename ξ).subst σ = e.subst (σ ∘ ξ) := by
  induction e generalizing σ ξ with
  | idx n => rfl
  | stray n => rfl
  | const x => rfl
  | lam A e ihA ihe => simp only [rename, subst, ihA, ihe, up_comp_upRen]
  | pi A B ihA ihB => simp only [rename, subst, ihA, ihB, up_comp_upRen]
  | app f a ihf iha => simp only [rename, subst, ihf, iha]
  | star => rfl
  | box => rfl
  | unknown => rfl

theorem rename_comp_up (σ : Nat → Nameless) (ξ : Nat → Nat) :
    rename (upRen ξ) ∘ up σ = up (rename ξ ∘ σ) := by
  funext n
  cases n with
  | zero => rfl
  | succ n => exact rename_lift ξ (σ n)

theorem rename_subst (σ : Nat → Nameless) (ξ : Nat → Nat) (e : Nameless) :
    (e.subst σ).rename ξ = e.subst (rename ξ ∘ σ) := by
  induction e generalizing σ ξ with
  | idx n => rfl
  | stray n => rfl
  | const x => rfl
  | lam A e ihA ihe => simp only [rename, subst, ihA, ihe, rename_comp_up]
  | pi A B ihA ihB => simp only [rename, subst, ihA, ihB, rename_comp_up]
  | app f a ihf iha => simp only [rename, subst, ihf, iha]
  | star => rfl
  | box => rfl
  | unknown => rfl

/-- Substitution under a binder passes a lifted tree by. -/
theorem subst_lift (σ : Nat → Nameless) (e : Nameless) :
    e.lift.subst (up σ) = (e.subst σ).lift := by
  unfold lift
  rw [subst_rename, rename_subst]
  rfl

theorem subst_comp_up (σ τ : Nat → Nameless) : subst (up τ) ∘ up σ = up (subst τ ∘ σ) := by
  funext n
  cases n with
  | zero => rfl
  | succ n => exact subst_lift τ (σ n)

theorem subst_subst (σ τ : Nat → Nameless) (e : Nameless) :
    (e.subst σ).subst τ = e.subst (subst τ ∘ σ) := by
  induction e generalizing σ τ with
  | idx n => rfl
  | stray n => rfl
  | const x => rfl
  | lam A e ihA ihe => simp only [subst, ihA, ihe, subst_comp_up]
  | pi A B ihA ihB => simp only [subst, ihA, ihB, subst_comp_up]
  | app f a ihf iha => simp only [subst, ihf, iha]
  | star => rfl
  | box => rfl
  | unknown => rfl

/-! ## 3. Instantiation -/

/-- A body that does not use its variable is what it was outside the binder. -/
@[simp] theorem inst_lift (e a : Nameless) : e.lift.inst a = e := by
  unfold lift inst
  rw [subst_rename]
  exact subst_idx e

theorem rename_inst (ξ : Nat → Nat) (e a : Nameless) :
    (e.inst a).rename ξ = (e.rename (upRen ξ)).inst (a.rename ξ) := by
  unfold inst
  rw [rename_subst, subst_rename]
  congr 1
  funext n
  cases n <;> rfl

theorem subst_inst (σ : Nat → Nameless) (e a : Nameless) :
    (e.inst a).subst σ = (e.subst (up σ)).inst (a.subst σ) := by
  unfold inst
  rw [subst_subst, subst_subst]
  congr 1
  funext n
  cases n with
  | zero => rfl
  | succ n => exact (inst_lift (σ n) (a.subst σ)).symm

/-! ## 4. Size, scope and sorts -/

/-- The number of nodes. -/
def size : Nameless → Nat
  | lam A e => A.size + e.size + 1
  | pi A B => A.size + B.size + 1
  | app f a => f.size + a.size + 1
  | _ => 1

@[simp] theorem size_rename (ξ : Nat → Nat) (e : Nameless) : (e.rename ξ).size = e.size := by
  induction e generalizing ξ with
  | lam A e ihA ihe => simp [rename, size, ihA, ihe]
  | pi A B ihA ihB => simp [rename, size, ihA, ihB]
  | app f a ihf iha => simp [rename, size, ihf, iha]
  | _ => rfl

/-- Every index points at one of the `k` innermost binders around the tree or at one inside. -/
def Below (k : Nat) : Nameless → Prop
  | idx n => n < k
  | lam A e => A.Below k ∧ e.Below (k + 1)
  | pi A B => A.Below k ∧ B.Below (k + 1)
  | app f a => f.Below k ∧ a.Below k
  | _ => True

/-- `*` or `□`. -/
def IsSort (s : Nameless) : Prop := s = star ∨ s = box

theorem isSort_star : IsSort star := .inl rfl

theorem isSort_box : IsSort box := .inr rfl

theorem IsSort.rename {s : Nameless} (h : s.IsSort) (ξ : Nat → Nat) : s.rename ξ = s := by
  rcases h with rfl | rfl <;> rfl

theorem IsSort.lift {s : Nameless} (h : s.IsSort) : s.lift = s := h.rename Nat.succ

theorem IsSort.subst {s : Nameless} (h : s.IsSort) (σ : Nat → Nameless) : s.subst σ = s := by
  rcases h with rfl | rfl <;> rfl

theorem IsSort.inst {s : Nameless} (h : s.IsSort) (a : Nameless) : s.inst a = s :=
  h.subst (single a)

/-- Renamings that agree on the indices a tree can hold give the same tree. -/
theorem rename_congr {k : Nat} {ξ ζ : Nat → Nat} (hξ : ∀ n < k, ξ n = ζ n) {e : Nameless}
    (he : e.Below k) : e.rename ξ = e.rename ζ := by
  have hup {k : Nat} {ξ ζ : Nat → Nat} (h : ∀ n < k, ξ n = ζ n) :
      ∀ n < k + 1, upRen ξ n = upRen ζ n := by
    intro n hn
    cases n with
    | zero => rfl
    | succ n => exact congrArg (· + 1) (h n (by omega))
  induction e generalizing k ξ ζ with
  | idx n => exact congrArg idx (hξ n he)
  | lam A e ihA ihe => rw [rename, rename, ihA hξ he.1, ihe (hup hξ) he.2]
  | pi A B ihA ihB => rw [rename, rename, ihA hξ he.1, ihB (hup hξ) he.2]
  | app f a ihf iha => rw [rename, rename, ihf hξ he.1, iha hξ he.2]
  | _ => rfl

/-- Nothing moves a tree without loose indices. -/
theorem rename_of_closed (ξ : Nat → Nat) {e : Nameless} (he : e.Below 0) : e.rename ξ = e :=
  (rename_congr (ζ := id) (fun n hn => absurd hn (Nat.not_lt_zero n)) he).trans (rename_id e)

/-- Substitutions that agree on the indices a tree can hold give the same tree. -/
theorem subst_congr {k : Nat} {σ τ : Nat → Nameless} (hσ : ∀ n < k, σ n = τ n) {e : Nameless}
    (he : e.Below k) : e.subst σ = e.subst τ := by
  have hup {k : Nat} {σ τ : Nat → Nameless} (h : ∀ n < k, σ n = τ n) :
      ∀ n < k + 1, up σ n = up τ n := by
    intro n hn
    cases n with
    | zero => rfl
    | succ n => exact congrArg lift (h n (by omega))
  induction e generalizing k σ τ with
  | idx n => exact hσ n he
  | lam A e ihA ihe => rw [subst, subst, ihA hσ he.1, ihe (hup hσ) he.2]
  | pi A B ihA ihB => rw [subst, subst, ihA hσ he.1, ihB (hup hσ) he.2]
  | app f a ihf iha => rw [subst, subst, ihf hσ he.1, iha hσ he.2]
  | _ => rfl

theorem subst_of_closed (σ : Nat → Nameless) {e : Nameless} (he : e.Below 0) : e.subst σ = e :=
  (subst_congr (τ := idx) (fun n hn => absurd hn (Nat.not_lt_zero n)) he).trans (subst_idx e)

end Nameless

end Constructions
