import Constructions.Proofs.Typing.Scope

/-!
# Derived types are closed

The types of binders lie unmoved in a context that is keyed by name, and are moved only where an
occurrence asks for them.  No index is left dangling by this.

* `Nameless.Over N S k e` -- what `e` is made of: indices of `k` binders around it, names in `N` and,
  if `S` holds, indices of negative depth.
* `Over.inst`, `Over.steps` -- instances and reduction stay within the same material.
* `Infers.over` -- a computed type is made of the names of the tree, of its binders and of the
  declarations of its names.
* `derive_closed` -- so a derivation that ends has found a type without a loose index.
-/

namespace Constructions

open Run

namespace Nameless

/-! ## 1. Material of a tree -/

/-- No index has a negative depth. -/
def Anchored : Nameless → Prop
  | stray _ => False
  | lam A e => A.Anchored ∧ e.Anchored
  | pi A B => A.Anchored ∧ B.Anchored
  | app f a => f.Anchored ∧ a.Anchored
  | _ => True

/-- Every occurrence is an index of one of the `k` binders around the tree or of one inside, a name
    in `N`, or, where `S` allows it, an index of negative depth. -/
def Over (N : String → Prop) (S : Prop) (k : Nat) : Nameless → Prop
  | idx n => n < k
  | stray _ => S
  | const x => N x
  | lam A e => A.Over N S k ∧ e.Over N S (k + 1)
  | pi A B => A.Over N S k ∧ B.Over N S (k + 1)
  | app f a => f.Over N S k ∧ a.Over N S k
  | _ => True

section

variable {N M : String → Prop} {S : Prop}

theorem over_iff {k : Nat} {e : Nameless} :
    e.Over N S k ↔ e.Below k ∧ (∀ x ∈ e.names, N x) ∧ (¬ S → e.Anchored) := by
  induction e generalizing k with
  | idx n => simp [Over, Below, names, Anchored]
  | stray n => simp [Over, Below, names, Anchored]
  | const x => simp [Over, Below, names, Anchored]
  | lam A e ihA ihe | pi A e ihA ihe | app A e ihA ihe =>
    simp only [Over, Below, names, Anchored, List.forall_mem_append, ihA, ihe, imp_and]
    exact and_and_and_comm.trans (and_congr_right fun _ => and_and_and_comm)
  | star => simp [Over, Below, names, Anchored]
  | box => simp [Over, Below, names, Anchored]
  | unknown => simp [Over, Below, names, Anchored]

theorem Over.mono (hN : ∀ x, N x → M x) {k m : Nat} (hk : k ≤ m) {e : Nameless}
    (h : e.Over N S k) : e.Over M S m := by
  induction e generalizing k m with
  | idx n => exact Nat.lt_of_lt_of_le h hk
  | stray n => exact h
  | const x => exact hN x h
  | lam A e ihA ihe => exact ⟨ihA hk h.1, ihe (Nat.succ_le_succ hk) h.2⟩
  | pi A B ihA ihB => exact ⟨ihA hk h.1, ihB (Nat.succ_le_succ hk) h.2⟩
  | app f a ihf iha => exact ⟨ihf hk h.1, iha hk h.2⟩
  | _ => trivial

theorem Over.rename {k m : Nat} {ξ : Nat → Nat} (hξ : ∀ n < k, ξ n < m) {e : Nameless}
    (h : e.Over N S k) : (e.rename ξ).Over N S m := by
  have hup {k m : Nat} {ξ : Nat → Nat} (hξ : ∀ n < k, ξ n < m) :
      ∀ n < k + 1, upRen ξ n < m + 1 := by
    intro n hn
    cases n with
    | zero => exact Nat.succ_pos m
    | succ n => exact Nat.succ_lt_succ (hξ n (Nat.lt_of_succ_lt_succ hn))
  induction e generalizing k m ξ with
  | idx n => exact hξ n h
  | lam A e ihA ihe => exact ⟨ihA hξ h.1, ihe (hup hξ) h.2⟩
  | pi A B ihA ihB => exact ⟨ihA hξ h.1, ihB (hup hξ) h.2⟩
  | app f a ihf iha => exact ⟨ihf hξ h.1, iha hξ h.2⟩
  | _ => exact h

theorem Over.subst {k m : Nat} {σ : Nat → Nameless} (hσ : ∀ n < k, (σ n).Over N S m)
    {e : Nameless} (h : e.Over N S k) : (e.subst σ).Over N S m := by
  have hup {k m : Nat} {σ : Nat → Nameless} (hσ : ∀ n < k, (σ n).Over N S m) :
      ∀ n < k + 1, (up σ n).Over N S (m + 1) := by
    intro n hn
    cases n with
    | zero => exact Nat.succ_pos m
    | succ n => exact (hσ n (Nat.lt_of_succ_lt_succ hn)).rename fun _ => Nat.succ_lt_succ
  induction e generalizing k m σ with
  | idx n => exact hσ n h
  | lam A e ihA ihe => exact ⟨ihA hσ h.1, ihe (hup hσ) h.2⟩
  | pi A B ihA ihB => exact ⟨ihA hσ h.1, ihB (hup hσ) h.2⟩
  | app f a ihf iha => exact ⟨ihf hσ h.1, iha hσ h.2⟩
  | _ => exact h

theorem Over.inst {k : Nat} {e a : Nameless} (he : e.Over N S (k + 1)) (ha : a.Over N S k) :
    (e.inst a).Over N S k := by
  refine he.subst fun n hn => ?_
  cases n with
  | zero => exact ha
  | succ n => exact Nat.lt_of_succ_lt_succ hn

theorem Over.step {k : Nat} {e f : Nameless} (hs : Step e f) (h : e.Over N S k) :
    f.Over N S k := by
  induction hs generalizing k with
  | beta A e a => exact h.1.2.inst h.2
  | lamType _ _ ih | piType _ _ ih | appFun _ _ ih => exact ⟨ih h.1, h.2⟩
  | lamBody _ _ ih | piBody _ _ ih | appArg _ _ ih => exact ⟨h.1, ih h.2⟩

/-- Reduction stays within the material of a tree. -/
theorem Over.steps {k : Nat} {e f : Nameless} (h : e.Over N S k) (hs : Steps e f) :
    f.Over N S k := by
  induction hs with
  | refl => exact h
  | tail _ hs ih => exact ih.step hs

theorem IsSort.over {s : Nameless} (h : s.IsSort) (k : Nat) : s.Over N S k := by
  rcases h with rfl | rfl <;> trivial

end

end Nameless

open Nameless

/-! ## 2. Computed types -/

/-- A binder's type, moved to an occurrence, is in scope there. -/
theorem Stacked.over {N : String → Prop} {S : Prop} {Δ : List Nameless}
    (hΔ : Stacked (fun outer A => A.Over N S outer.length) Δ) {n : Nat} {A : Nameless}
    (hn : Δ[n]? = some A) : (A.liftN (n + 1)).Over N S Δ.length := by
  have hlt : n < Δ.length := (List.getElem?_eq_some_iff.mp hn).1
  refine (hΔ n A hn).rename fun m hm => ?_
  rw [List.length_drop] at hm
  omega

/-- **A computed type is made of the names of the tree and of the declarations that they have.** -/
theorem Infers.over {G : List (String × Nameless)} {N M : String → Prop} {S : Prop}
    (hN : ∀ x, N x → M x) (hG : ∀ x A, N x → G.lookup x = some A → A.Over M S 0)
    {Δ : List Nameless} {e T : Nameless} (h : Infers G Δ e T) (he : e.Over N S Δ.length)
    (hΔ : Stacked (fun outer A => A.Over M S outer.length) Δ) : T.Over M S Δ.length := by
  induction h with
  | sort => trivial
  | bound hn hT => exact (hΔ.over hn).steps hT.steps
  | declared hx hT =>
    exact ((hG _ _ he hx).mono (fun _ h => h) (Nat.zero_le _)).steps hT.steps
  | form _ _ _ _ _ h₂ _ _ => exact h₂.over _
  | @abst Δ A e B _ _ _ _ _ _ _ _ hT _ ihe =>
    have hA : A.Over M S Δ.length := he.1.mono hN (Nat.le_refl _)
    have hpi : (pi A B).Over M S Δ.length := ⟨hA, ihe he.2 (hΔ.cons hA)⟩
    exact hpi.steps hT.steps
  | @appl Δ f a F A B _ _ _ _ hF _ _ _ hT ihf _ =>
    have hpi : (pi A B).Over M S Δ.length := (ihf he.1 hΔ).steps hF.steps
    have ha : a.Over M S Δ.length := he.2.mono hN (Nat.le_refl _)
    exact (hpi.2.inst ha).steps hT.steps

/-- A coherent expression has no index of negative depth. -/
theorem Expr.Coherent.anchored {σ : List Binder} {e : Expr} (h : e.Coherent σ) :
    e.erase.Anchored := by
  induction e generalizing σ with
  | var r =>
    cases r with
    | free x => trivial
    | bound i =>
      rw [erase, ofDepth_of_nonneg h.1]
      trivial
  | lam b A e ihA ihe => exact ⟨ihA h.1, ihe h.2⟩
  | pi b A B ihA ihB => exact ⟨ihA h.1, ihB h.2⟩
  | app f a ihf iha => exact ⟨ihf h.1, iha h.2⟩
  | _ => trivial

/-- `x` occurs free in `e`, or in the type that `Γ` has for a free name of `e`. -/
def Ctx.Supplies (Γ : Ctx) (e : Expr) (x : String) : Prop :=
  x ∈ e.freeNames ∨ ∃ y ∈ e.freeNames, ∃ D, Γ.get? y = some D ∧ x ∈ D.freeNames

/-- The type of a closed coherent expression is made of what the declarations supply. -/
theorem derive_over {S : Prop} {cap : Option Int} {fuel : Nat} {Γ : Ctx} {e T : Expr}
    (hc : e.Coherent [])
    (hd : ∀ x ∈ e.freeNames, ∃ D, Γ.get? x = some D ∧ D.erase.Below 0 ∧ (¬ S → D.erase.Anchored))
    (h : (derive cap fuel Γ e).Yields T) : T.erase.Over (Γ.Supplies e) S 0 := by
  have hdecl : ∀ x ∈ e.freeNames, Γ.contains x = true := by
    intro x hx
    obtain ⟨D, hD, _⟩ := hd x hx
    rw [Ctx.contains, hD, Option.isSome_some]
  have hinfers := derive_infers (.start Γ) hc hdecl h
  refine hinfers.over (N := (· ∈ e.freeNames)) (fun _ hx => .inl hx) (fun x A hx hA => ?_) ?_ .nil
  · obtain ⟨D, hD, hbelow, hanchored⟩ := hd x hx
    rw [Ctx.lookup_erase, hD] at hA
    cases hA
    refine over_iff.mpr ⟨hbelow, fun y hy => .inr ⟨x, hx, D, hD, ?_⟩, hanchored⟩
    rwa [Expr.names_erase] at hy
  · refine over_iff.mpr ⟨hc.below, fun x hx => ?_, fun _ => hc.anchored⟩
    rwa [Expr.names_erase] at hx

/-- **No index dangles in a derived type.**  Its free names are those of the expression and of the
    types that these are declared with; nor has it an index of negative depth, unless one of these
    types has. -/
theorem derive_closed {cap : Option Int} {fuel : Nat} {Γ : Ctx} {e T : Expr} (hc : e.Coherent [])
    (hd : ∀ x ∈ e.freeNames, ∃ D, Γ.get? x = some D ∧ D.erase.Below 0)
    (h : (derive cap fuel Γ e).Yields T) :
    T.erase.Below 0
      ∧ (∀ x ∈ T.freeNames,
          x ∈ e.freeNames ∨ ∃ y ∈ e.freeNames, ∃ D, Γ.get? y = some D ∧ x ∈ D.freeNames)
      ∧ ((∀ x ∈ e.freeNames, ∀ D, Γ.get? x = some D → D.erase.Anchored) → T.erase.Anchored) := by
  have hlax : T.erase.Over (Γ.Supplies e) True 0 := by
    refine derive_over hc (fun x hx => ?_) h
    obtain ⟨D, hD, hbelow⟩ := hd x hx
    exact ⟨D, hD, hbelow, fun hS => absurd trivial hS⟩
  obtain ⟨hbelow, hnames, _⟩ := over_iff.mp hlax
  refine ⟨hbelow, fun x hx => hnames x ?_, fun hanchored => ?_⟩
  · rwa [Expr.names_erase]
  · have hstrict : T.erase.Over (Γ.Supplies e) False 0 := by
      refine derive_over hc (fun x hx => ?_) h
      obtain ⟨D, hD, hbelow⟩ := hd x hx
      exact ⟨D, hD, hbelow, fun _ => hanchored x hx D hD⟩
    exact (over_iff.mp hstrict).2.2 not_false

/-- `λA : * . λx : A . λA : * . λx : A . n` under `loop : loop`, `N : *` and `n : N`.  The binders share
    entries, and only the declaration of `n` brings `N` into the type. -/
theorem derive_closed_shared :
    let Γ : Ctx := ⟨("loop", .var (.free "loop")) :: Ctx.point.entries⟩
    let e : Expr := .abs (.named "A") .star (.abs (.named "x") (.var (.free "A"))
      (.abs (.named "A") .star (.abs (.named "x") (.var (.free "A")) (.var (.free "n")))))
    let T : Expr := .all (.named "A") .star (.all (.named "x") (.var (.free "A"))
      (.all (.named "A") .star (.all (.named "x") (.var (.free "A")) (.var (.free "N")))))
    (derive (some 9) 12 Γ e).Yields T ∧ T.erase.Below 0 ∧ T.erase.Anchored
      ∧ "N" ∈ T.freeNames ∧ "N" ∉ e.freeNames
      ∧ ∃ y ∈ e.freeNames, ∃ D, Γ.get? y = some D ∧ "N" ∈ D.freeNames := by
  intro Γ e T
  have hT : (derive (some 9) 12 Γ e).Yields T := ⟨_, rfl⟩
  have hn : ∀ x ∈ e.freeNames, Γ.get? x = some (.var (.free "N")) := by decide
  have hN : "N" ∈ T.freeNames := by decide
  have hNe : "N" ∉ e.freeNames := by decide
  obtain ⟨hbelow, hnames, hanchored⟩ :=
    derive_closed (by decide) (fun x hx => ⟨_, hn x hx, trivial⟩) hT
  refine ⟨hT, hbelow, hanchored fun x hx D hD => ?_, hN, hNe, (hnames "N" hN).resolve_left hNe⟩
  cases (hn x hx).symm.trans hD
  trivial

end Constructions
