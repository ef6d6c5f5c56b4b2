import Constructions.Proofs.Typing.Preservation

/-!
# What classifies a tree

The judgement without checks takes the types of declarations and conversions as they are.  When the
declarations and the binders have types for their types, every type that a tree has is still
convertible to a *classifier*: `□`, a type, or a Π over a type whose codomain is a classifier.

* `Classifier` -- kept by contractions and by substitution; `HasType.classified` -- **every type is
  convertible to one.**
* `arity` -- what a kind takes and gives, read off the tree: `*` is a type, a Π takes what its
  domain describes.  A tree has an arity when it is a kind or makes kinds.
* `Classifier.arity_conv` -- convertible classifiers have the same arity.
-/

namespace Constructions

open Nameless

/-! ## 1. Types and classifiers -/

/-- `A` has a sort. -/
def IsType (G : List (String × Nameless)) (Δ : List Nameless) (A : Nameless) : Prop :=
  ∃ s, IsSort s ∧ HasType False G Δ A s

/-- Every declaration is of a type. -/
def TypedDecls (G : List (String × Nameless)) : Prop := ∀ x A, G.lookup x = some A → IsType G [] A

/-- Every binder is of a type. -/
def TypedBinders (G : List (String × Nameless)) : List Nameless → Prop := Stacked (IsType G)

/-- `□`, a type, or a Π over a type whose codomain is a classifier. -/
inductive Classifier (G : List (String × Nameless)) : List Nameless → Nameless → Prop
  | box {Δ : List Nameless} : Classifier G Δ box
  | type {Δ : List Nameless} {A : Nameless} (hA : IsType G Δ A) : Classifier G Δ A
  | pi {Δ : List Nameless} {A B : Nameless} (hA : IsType G Δ A) (hB : Classifier G (A :: Δ) B) :
      Classifier G Δ (pi A B)

/-- A telescope of Π that ends in `□`. -/
def Nameless.topped : Nameless → Bool
  | box => true
  | pi _ B => B.topped
  | _ => false

section

variable {G : List (String × Nameless)} {Δ : List Nameless}

theorem TypedBinders.cons (h : TypedBinders G Δ) {A : Nameless} (hA : IsType G Δ A) :
    TypedBinders G (A :: Δ) :=
  Stacked.cons h hA

theorem Declarable.unchecked (A : Nameless) : Declarable False G Δ A :=
  ⟨star, isSort_star, False.elim⟩

theorem HasType.convert_unchecked {e A B : Nameless} (h : HasType False G Δ e A) (hc : Conv A B) :
    HasType False G Δ e B :=
  h.convert hc (.unchecked B)

theorem IsType.steps {A B : Nameless} (h : IsType G Δ A) (hs : Steps A B) : IsType G Δ B := by
  obtain ⟨s, hsort, hA⟩ := h
  exact ⟨s, hsort, hA.steps hs⟩

theorem IsType.of_pi {A B : Nameless} (h : IsType G Δ (Nameless.pi A B)) :
    IsType G Δ A ∧ IsType G (A :: Δ) B := by
  obtain ⟨_, _, hP⟩ := h
  obtain ⟨s₁, s₂, h₁, h₂, hA, hB, _⟩ := hP.premises
  exact ⟨⟨s₁, h₁, hA⟩, s₂, h₂, hB⟩

theorem IsType.subst {Δ' : List Nameless} {σ : Nat → Nameless} {A : Nameless} (h : IsType G Δ A)
    (hσ : Fills False G σ Δ Δ') : IsType G Δ' (A.subst σ) := by
  obtain ⟨s, hs, hA⟩ := h
  have hA' := hA.subst hσ
  rw [hs.subst] at hA'
  exact ⟨s, hs, hA'⟩

theorem IsSort.classifier {s : Nameless} (hs : s.IsSort) : Classifier G Δ s := by
  rcases hs with rfl | rfl
  · exact .type ⟨box, isSort_box, .sort⟩
  · exact .box

/-- A tree that has a type does not end in `□`. -/
theorem HasType.not_topped {A C : Nameless} (h : HasType False G Δ A C) : A.topped = false := by
  induction A generalizing Δ C with
  | pi A B _ ihB =>
    obtain ⟨_, _, _, _, _, hB, _⟩ := h.premises
    exact ihB hB
  | box => exact (not_hasType_box h).elim
  | _ => rfl

theorem IsType.not_topped {A : Nameless} (h : IsType G Δ A) : A.topped = false := by
  obtain ⟨_, _, hA⟩ := h
  exact hA.not_topped

theorem Classifier.of_pi {A B : Nameless} (h : Classifier G Δ (Nameless.pi A B)) :
    IsType G Δ A ∧ Classifier G (A :: Δ) B := by
  cases h with
  | type hP => exact ⟨hP.of_pi.1, .type hP.of_pi.2⟩
  | pi hA hB => exact ⟨hA, hB⟩

/-- Well-typed substitution keeps a classifier and how it ends. -/
theorem Classifier.subst {Δ' : List Nameless} {σ : Nat → Nameless} {A : Nameless}
    (h : Classifier G Δ A) (hσ : Fills False G σ Δ Δ') :
    Classifier G Δ' (A.subst σ) ∧ (A.subst σ).topped = A.topped := by
  induction h generalizing Δ' σ with
  | box => exact ⟨.box, rfl⟩
  | type hA =>
    have hA' := hA.subst hσ
    exact ⟨.type hA', hA'.not_topped.trans hA.not_topped.symm⟩
  | pi hA hB ihB =>
    obtain ⟨hB', htop⟩ := ihB (hσ.up (.unchecked _))
    exact ⟨.pi (hA.subst hσ) hB', htop⟩

/-- A contraction keeps a classifier and how it ends. -/
theorem Classifier.step {A A' : Nameless} (h : Classifier G Δ A) (hs : Step A A') :
    Classifier G Δ A' ∧ A'.topped = A.topped := by
  induction h generalizing A' with
  | box => nomatch hs
  | type hA =>
    have hA' := hA.steps (.single hs)
    exact ⟨.type hA', hA'.not_topped.trans hA.not_topped.symm⟩
  | pi hA hB ihB =>
    cases hs with
    | piType _ hs =>
      obtain ⟨hB', _⟩ := hB.subst (.retype hs.conv (.unchecked _))
      rw [subst_idx] at hB'
      exact ⟨.pi (hA.steps (.single hs)) hB', rfl⟩
    | piBody _ hs =>
      obtain ⟨hB', htop⟩ := ihB hs
      exact ⟨.pi hA hB', htop⟩

theorem Classifier.steps {A A' : Nameless} (h : Classifier G Δ A) (hs : Steps A A') :
    Classifier G Δ A' ∧ A'.topped = A.topped := by
  induction hs with
  | refl => exact ⟨h, rfl⟩
  | tail _ hs ih =>
    obtain ⟨hA', htop⟩ := ih.1.step hs
    exact ⟨hA', htop.trans ih.2⟩

theorem Classifier.topped_conv {A B : Nameless} (hA : Classifier G Δ A) (hB : Classifier G Δ B)
    (hc : Conv A B) : A.topped = B.topped := by
  obtain ⟨C, hAC, hBC⟩ := hc.join
  exact (hA.steps hAC).2.symm.trans (hB.steps hBC).2

/-- A classifier that is convertible to a Π reduces to one, of a type and a classifier. -/
theorem Classifier.function {F A B : Nameless} (h : Classifier G Δ F)
    (hc : Conv (Nameless.pi A B) F) :
    ∃ A' B', Steps F (Nameless.pi A' B') ∧ Conv A A' ∧ Conv B B' ∧ IsType G Δ A'
      ∧ Classifier G (A' :: Δ) B' := by
  obtain ⟨A', B', hs, hA, hB⟩ := hc.symm.steps_pi
  obtain ⟨hA', hB'⟩ := (h.steps hs).1.of_pi
  exact ⟨A', B', hs, hA.symm, hB.symm, hA', hB'⟩

/-! ## 2. Arities -/

/-- What a constructor of some kind takes and gives; a tree that is no constructor has the arity
    `none`. -/
inductive Arity
  | none
  | type
  | fn (k l : Arity)
deriving DecidableEq

namespace Arity

/-- The functions from `k` to `l`; those that give no constructor are none. -/
def arrow (k l : Arity) : Arity := if l = none then none else fn k l

/-- What an application of a constructor gives. -/
def codomain : Arity → Arity
  | fn _ l => l
  | _ => none

@[simp] theorem codomain_arrow (k l : Arity) : (arrow k l).codomain = l := by
  unfold arrow
  split
  · rename_i hl
    rw [hl]
    rfl
  · rfl

theorem arrow_eq_none {k l : Arity} : arrow k l = none ↔ l = none := by
  unfold arrow
  split <;> simp_all

theorem fn_ne_left (k l : Arity) : fn k l ≠ k := by
  induction k generalizing l with
  | none => exact Arity.noConfusion
  | type => exact Arity.noConfusion
  | fn k₁ k₂ ih =>
    intro h
    injection h with h _
    exact ih k₂ h

/-- No arity is that of functions on itself. -/
theorem arrow_ne_left {k : Arity} (l : Arity) (hk : k ≠ none) : arrow k l ≠ k := by
  unfold arrow
  split
  · exact hk.symm
  · exact fn_ne_left k l

end Arity

/-- The arity that a kind describes.  A tree that makes kinds has the arity of those it makes. -/
def Nameless.arity : Nameless → Arity
  | star => .type
  | pi A B => .arrow A.arity B.arity
  | lam _ e => e.arity
  | app f _ => f.arity
  | _ => .none

namespace Nameless

@[simp] theorem arity_rename (ξ : Nat → Nat) (e : Nameless) : (e.rename ξ).arity = e.arity := by
  induction e generalizing ξ with
  | pi A B ihA ihB => simp only [rename, arity, ihA, ihB]
  | lam A e _ ihe => exact ihe (upRen ξ)
  | app f a ihf _ => exact ihf ξ
  | _ => rfl

theorem arity_up {σ : Nat → Nameless} (hσ : ∀ n, (σ n).arity = .none) (n : Nat) :
    (up σ n).arity = .none := by
  cases n with
  | zero => rfl
  | succ n => exact (arity_rename Nat.succ (σ n)).trans (hσ n)

/-- Variables are never kinds, so what is put for them, if no kind either, does not matter. -/
theorem arity_subst {σ : Nat → Nameless} (hσ : ∀ n, (σ n).arity = .none) (e : Nameless) :
    (e.subst σ).arity = e.arity := by
  induction e generalizing σ with
  | idx n => exact hσ n
  | pi A B ihA ihB => simp only [subst, arity, ihA hσ, ihB (arity_up hσ)]
  | lam A e _ ihe => exact ihe (arity_up hσ)
  | app f a ihf _ => exact ihf hσ
  | _ => rfl

theorem arity_single {a : Nameless} (ha : a.arity = .none) (n : Nat) :
    (single a n).arity = .none := by
  cases n with
  | zero => exact ha
  | succ n => rfl

theorem arity_inst {a : Nameless} (ha : a.arity = .none) (e : Nameless) :
    (e.inst a).arity = e.arity :=
  arity_subst (arity_single ha) e

end Nameless

/-! ## 3. Every type is convertible to a classifier -/

/-- **A type that a tree has is convertible to a classifier**, which ends in `□` just when the tree
    has an arity. -/
theorem HasType.classified (hG : TypedDecls G) {e A : Nameless} (h : HasType False G Δ e A)
    (hΔ : TypedBinders G Δ) :
    ∃ C, Conv A C ∧ Classifier G Δ C ∧ (e.arity ≠ .none ↔ C.topped = true) := by
  induction h with
  | sort => exact ⟨box, .refl _, .box, by simp [arity, topped]⟩
  | @bound G Δ n A s hn hs hA =>
    obtain ⟨t, ht, hAt⟩ := hΔ n A hn
    have hA' : IsType G Δ (A.liftN (n + 1)) :=
      ⟨t, ht, hAt.weaken_drop ht (n + 1) (List.getElem?_eq_some_iff.mp hn).1⟩
    exact ⟨_, .refl _, .type hA', by simp [arity, hA'.not_topped]⟩
  | @declared G Δ x A s hx hc hs hA =>
    obtain ⟨t, ht, hAt⟩ := hG x A hx
    have hA' : IsType G Δ A := ⟨t, ht, hAt.weaken_closed hc ht Δ⟩
    exact ⟨_, .refl _, .type hA', by simp [arity, hA'.not_topped]⟩
  | @form G Δ A B s₁ s₂ h₁ h₂ hA hB ihA ihB =>
    obtain ⟨C, hc, hC, htop⟩ := ihB hG (hΔ.cons ⟨s₁, h₁, hA⟩)
    refine ⟨s₂, .refl _, IsSort.classifier h₂, ?_⟩
    rw [(IsSort.classifier h₂).topped_conv hC hc, ← htop]
    simp [arity, Arity.arrow_eq_none]
  | @abst G Δ A e B s₁ s h₁ hs hA he hP ihA ihe =>
    obtain ⟨C, hc, hC, htop⟩ := ihe hG (hΔ.cons ⟨s₁, h₁, hA⟩)
    exact ⟨Nameless.pi A C, .pi (.refl A) hc, .pi ⟨s₁, h₁, hA⟩ hC, htop⟩
  | @appl G Δ f a A B hf ha ihf iha =>
    obtain ⟨F, hc, hF, htop⟩ := ihf hG hΔ
    obtain ⟨A', B', hs, hcA, hcB, hA', hB'⟩ := hF.function hc
    obtain ⟨hBa, htopB⟩ := hB'.subst (.single (ha.convert_unchecked hcA))
    refine ⟨B'.inst a, hcB.inst a, hBa, ?_⟩
    have hsame : F.topped = (B'.inst a).topped := (hF.steps hs).2.symm.trans htopB.symm
    exact hsame ▸ htop
  | conv hs he hc hB ih =>
    obtain ⟨C, hcC, hC, htop⟩ := ih hG hΔ
    exact ⟨C, hc.symm.trans hcC, hC, htop⟩

/-- What has a type of its own for its type is no kind and makes none. -/
theorem HasType.arity_none (hG : TypedDecls G) (hΔ : TypedBinders G Δ) {a A : Nameless}
    (ha : HasType False G Δ a A) (hA : IsType G Δ A) : a.arity = .none := by
  obtain ⟨C, hc, hC, htop⟩ := ha.classified hG hΔ
  have hAC := (Classifier.type hA).topped_conv hC hc
  rw [hA.not_topped] at hAC
  by_cases hnone : a.arity = .none
  · exact hnone
  · rw [htop.mp hnone] at hAC
    cases hAC

/-- A kind has an arity. -/
theorem HasType.arity_of_kind (hG : TypedDecls G) (hΔ : TypedBinders G Δ) {A : Nameless}
    (hA : HasType False G Δ A Nameless.box) : A.arity ≠ .none := by
  obtain ⟨C, hc, hC, htop⟩ := hA.classified hG hΔ
  exact htop.mpr ((Classifier.box).topped_conv hC hc).symm

/-- The argument of a typed redex has the type that its λ asks for. -/
theorem HasType.redex_argument {A e a C : Nameless} (h : HasType False G Δ (app (lam A e) a) C) :
    IsType G Δ A ∧ HasType False G Δ a A := by
  obtain ⟨A', B', hf, ha, _⟩ := h.premises
  obtain ⟨B, s, hs, hA, _, hc⟩ := hf.premises
  exact ⟨⟨s, hs, hA⟩, ha.convert_unchecked hc.pi_inj.1.symm⟩

/-- A contraction keeps the arity of a typed tree. -/
theorem HasType.arity_step (hG : TypedDecls G) {e f C : Nameless} (h : HasType False G Δ e C)
    (hΔ : TypedBinders G Δ) (hs : Step e f) : f.arity = e.arity := by
  induction hs generalizing Δ C with
  | beta A e a =>
    obtain ⟨hA, ha⟩ := h.redex_argument
    exact arity_inst (ha.arity_none hG hΔ hA) e
  | lamType e _ _ => rfl
  | lamBody A _ ih =>
    obtain ⟨B, s, hs, hA, he, _⟩ := h.premises
    exact ih he (hΔ.cons ⟨s, hs, hA⟩)
  | piType B _ ih =>
    obtain ⟨_, _, _, _, hA, _, _⟩ := h.premises
    simp only [arity, ih hA hΔ]
  | piBody A _ ih =>
    obtain ⟨s, _, hs, _, hA, hB, _⟩ := h.premises
    simp only [arity, ih hB (hΔ.cons ⟨s, hs, hA⟩)]
  | appFun a _ ih =>
    obtain ⟨_, _, hf, _, _⟩ := h.premises
    exact ih hf hΔ
  | appArg f _ _ => rfl

theorem Classifier.arity_step (hG : TypedDecls G) {A A' : Nameless} (h : Classifier G Δ A)
    (hΔ : TypedBinders G Δ) (hs : Step A A') : A'.arity = A.arity := by
  induction h generalizing A' with
  | box => nomatch hs
  | type hA =>
    obtain ⟨_, _, hA⟩ := hA
    exact hA.arity_step hG hΔ hs
  | pi hA hB ihB =>
    cases hs with
    | piType _ hs =>
      obtain ⟨_, _, hA⟩ := hA
      simp only [arity, hA.arity_step hG hΔ hs]
    | piBody _ hs => simp only [arity, ihB (hΔ.cons hA) hs]

theorem Classifier.arity_steps (hG : TypedDecls G) (hΔ : TypedBinders G Δ) {A A' : Nameless}
    (h : Classifier G Δ A) (hs : Steps A A') : A'.arity = A.arity := by
  induction hs with
  | refl => rfl
  | tail hs hlast ih => exact ((h.steps hs).1.arity_step hG hΔ hlast).trans ih

/-- **Convertible classifiers have the same arity.** -/
theorem Classifier.arity_conv (hG : TypedDecls G) (hΔ : TypedBinders G Δ) {A B : Nameless}
    (hA : Classifier G Δ A) (hB : Classifier G Δ B) (hc : Conv A B) : A.arity = B.arity := by
  obtain ⟨C, hAC, hBC⟩ := hc.join
  exact (hA.arity_steps hG hΔ hAC).symm.trans (hB.arity_steps hG hΔ hBC)

end

end Constructions
