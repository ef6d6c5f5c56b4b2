import Constructions.Assoc
import Constructions.Proofs.Nameless.Reduction

/-!
# The calculus

The rules of the Calculus of Constructions over nameless trees.  A judgement has two contexts: the
declarations of names, and the types of the binders around the tree, innermost first.  A binder is
found by its position, so two binders never share an entry.

    (Sort)  G; Δ ⊢ * : □

    (Var)   x : A in G,  G without x; · ⊢ A : s       (Form)  G; Δ ⊢ A : s₁,  G; Δ, A ⊢ B : s₂
            -----------------------------------               -------------------------------
            G; Δ ⊢ x : A                                      G; Δ ⊢ ΠA . B : s₂

    (Abst)  G; Δ, A ⊢ e : B,  G; Δ ⊢ ΠA . B : s       (Appl)  G; Δ ⊢ f : ΠA . B,  G; Δ ⊢ a : A
            -----------------------------------               --------------------------------
            G; Δ ⊢ λA . e : ΠA . B                            G; Δ ⊢ f a : B with a for 0

    (Conv)  G; Δ ⊢ e : A,  A = B up to β,  G; Δ ⊢ B : s
            -------------------------------------------
            G; Δ ⊢ e : B

A bound variable follows (Var), its declaration being checked outside of its binder.

* `HasType` -- the rules.  A flag says whether the types that come with a judgement are checked to
  be types: with `True` these are the rules above, and with `False` a declaration, a converted type
  and the Π of an abstraction are taken as they are.  The domain of an abstraction is checked in any
  case; for `True` the check of its Π contains this one.
* `HasType.premises` -- what a judgement about each form of tree rests on.
* `HasType.rename`, `HasType.weaken` -- further binders, and `HasType.declare`, further
  declarations.
* `HasType.subst` -- substitution; `HasType.inst` for one variable, and `HasType.retype` for
  changing the type of a binder to a convertible one.
-/

namespace Constructions

open Nameless

/-! ## 1. The rules -/

/-- The judgement that `e` has type `A`, under the declarations `G` and binders of the types `Δ`. -/
inductive HasType (checked : Prop) :
    List (String × Nameless) → List Nameless → Nameless → Nameless → Prop
  | sort {G : List (String × Nameless)} {Δ : List Nameless} : HasType checked G Δ star box
  | bound {G : List (String × Nameless)} {Δ : List Nameless} {n : Nat} {A s : Nameless}
      (hn : Δ[n]? = some A) (hs : s.IsSort)
      (hA : checked → HasType checked G (Δ.drop (n + 1)) A s) :
      HasType checked G Δ (idx n) (A.liftN (n + 1))
  | declared {G : List (String × Nameless)} {Δ : List Nameless} {x : String} {A s : Nameless}
      (hx : G.lookup x = some A) (hc : A.Below 0) (hs : s.IsSort)
      (hA : checked → HasType checked (Assoc.erase x G) [] A s) : HasType checked G Δ (const x) A
  | form {G : List (String × Nameless)} {Δ : List Nameless} {A B s₁ s₂ : Nameless}
      (h₁ : s₁.IsSort) (h₂ : s₂.IsSort) (hA : HasType checked G Δ A s₁)
      (hB : HasType checked G (A :: Δ) B s₂) : HasType checked G Δ (pi A B) s₂
  | abst {G : List (String × Nameless)} {Δ : List Nameless} {A e B s₁ s : Nameless}
      (h₁ : s₁.IsSort) (hs : s.IsSort) (hA : HasType checked G Δ A s₁)
      (he : HasType checked G (A :: Δ) e B) (hP : checked → HasType checked G Δ (pi A B) s) :
      HasType checked G Δ (lam A e) (pi A B)
  | appl {G : List (String × Nameless)} {Δ : List Nameless} {f a A B : Nameless}
      (hf : HasType checked G Δ f (pi A B)) (ha : HasType checked G Δ a A) :
      HasType checked G Δ (app f a) (B.inst a)
  | conv {G : List (String × Nameless)} {Δ : List Nameless} {e A B s : Nameless} (hs : s.IsSort)
      (he : HasType checked G Δ e A) (hc : Conv A B) (hB : checked → HasType checked G Δ B s) :
      HasType checked G Δ e B

section

variable {checked : Prop} {G : List (String × Nameless)} {Δ : List Nameless}

/-- `A` is a type, as far as that is checked. -/
def Declarable (checked : Prop) (G : List (String × Nameless)) (Δ : List Nameless) (A : Nameless) :
    Prop :=
  ∃ s, IsSort s ∧ (checked → HasType checked G Δ A s)

theorem HasType.declarable {A s : Nameless} (h : HasType checked G Δ A s) (hs : s.IsSort) :
    Declarable checked G Δ A :=
  ⟨s, hs, fun _ => h⟩

theorem Declarable.of_checked {A : Nameless}
    (h : checked → ∃ s, IsSort s ∧ HasType checked G Δ A s) : Declarable checked G Δ A := by
  by_cases hch : checked
  · obtain ⟨s, hs, hA⟩ := h hch
    exact hA.declarable hs
  · exact ⟨star, isSort_star, fun hc => absurd hc hch⟩

theorem Declarable.bound {n : Nat} {A : Nameless} (hn : Δ[n]? = some A)
    (h : Declarable checked G (Δ.drop (n + 1)) A) :
    HasType checked G Δ (idx n) (A.liftN (n + 1)) := by
  obtain ⟨s, hs, hA⟩ := h
  exact .bound hn hs hA

/-- Each type of the binders has the property `P` under the binders further out. -/
def Stacked (P : List Nameless → Nameless → Prop) (Δ : List Nameless) : Prop :=
  ∀ n A, Δ[n]? = some A → P (Δ.drop (n + 1)) A

theorem Stacked.nil {P : List Nameless → Nameless → Prop} : Stacked P [] := nofun

theorem Stacked.cons {P : List Nameless → Nameless → Prop} (h : Stacked P Δ) {A : Nameless}
    (hA : P Δ A) : Stacked P (A :: Δ) := by
  intro n B hB
  cases n with
  | zero =>
    cases hB
    exact hA
  | succ n => exact h n B hB

/-! ## 2. What a judgement rests on -/

/-- What the judgement `e : C` rests on, by the form of `e`; conversions at its end are collected in
    the last part. -/
def Premises (checked : Prop) (G : List (String × Nameless)) (Δ : List Nameless) :
    Nameless → Nameless → Prop
  | idx n, C => ∃ A, Δ[n]? = some A ∧ Declarable checked G (Δ.drop (n + 1)) A
      ∧ Conv (A.liftN (n + 1)) C
  | const x, C => ∃ A, G.lookup x = some A ∧ Conv A C
  | lam A e, C => ∃ B s, IsSort s ∧ HasType checked G Δ A s ∧ HasType checked G (A :: Δ) e B
      ∧ Conv (pi A B) C
  | pi A B, C => ∃ s₁ s₂, IsSort s₁ ∧ IsSort s₂ ∧ HasType checked G Δ A s₁
      ∧ HasType checked G (A :: Δ) B s₂ ∧ Conv s₂ C
  | app f a, C => ∃ A B, HasType checked G Δ f (pi A B) ∧ HasType checked G Δ a A
      ∧ Conv (B.inst a) C
  | .star, C => Conv box C
  | _, _ => False

theorem Premises.conv {e A B : Nameless} (h : Premises checked G Δ e A) (hc : Conv A B) :
    Premises checked G Δ e B := by
  cases e with
  | idx n =>
    obtain ⟨D, hn, hD, hA⟩ := h
    exact ⟨D, hn, hD, hA.trans hc⟩
  | const x =>
    obtain ⟨D, hx, hA⟩ := h
    exact ⟨D, hx, hA.trans hc⟩
  | lam D e =>
    obtain ⟨C, s, hs, hD, he, hA⟩ := h
    exact ⟨C, s, hs, hD, he, hA.trans hc⟩
  | pi D C =>
    obtain ⟨s₁, s₂, h₁, h₂, hD, hC, hA⟩ := h
    exact ⟨s₁, s₂, h₁, h₂, hD, hC, hA.trans hc⟩
  | app f a =>
    obtain ⟨D, C, hf, ha, hA⟩ := h
    exact ⟨D, C, hf, ha, hA.trans hc⟩
  | star => exact Conv.trans h hc
  | stray n => exact h
  | box => exact h
  | unknown => exact h

/-- A judgement rests on the premises of the rule for its tree. -/
theorem HasType.premises {e C : Nameless} (h : HasType checked G Δ e C) :
    Premises checked G Δ e C := by
  induction h with
  | sort => exact .refl box
  | bound hn hs hA => exact ⟨_, hn, ⟨_, hs, hA⟩, .refl _⟩
  | declared hx hc hs hA => exact ⟨_, hx, .refl _⟩
  | form h₁ h₂ hA hB => exact ⟨_, _, h₁, h₂, hA, hB, .refl _⟩
  | abst h₁ hs hA he hP => exact ⟨_, _, h₁, hA, he, .refl _⟩
  | appl hf ha => exact ⟨_, _, hf, ha, .refl _⟩
  | conv hs he hc hB ih => exact ih.conv hc

/-- `□` has no type. -/
theorem not_hasType_box {C : Nameless} : ¬ HasType checked G Δ box C := fun h => h.premises

/-! ## 3. Further binders and declarations -/

/-- `ξ` takes the binders of `Δ` to binders of `Δ'` with the same types, and checked ones to checked
    ones. -/
def Renames (checked : Prop) (G : List (String × Nameless)) (ξ : Nat → Nat)
    (Δ Δ' : List Nameless) : Prop :=
  ∀ n A, Δ[n]? = some A → ∃ A', Δ'[ξ n]? = some A'
    ∧ A'.liftN (ξ n + 1) = (A.liftN (n + 1)).rename ξ
    ∧ (Declarable checked G (Δ.drop (n + 1)) A → Declarable checked G (Δ'.drop (ξ n + 1)) A')

theorem liftN_rename_up (ξ : Nat → Nat) (k : Nat) (A : Nameless) :
    (A.liftN (k + 1)).rename (upRen ξ) = ((A.liftN k).rename ξ).lift := by
  rw [liftN_succ, rename_lift]

theorem Renames.up {ξ : Nat → Nat} {Δ' : List Nameless} (h : Renames checked G ξ Δ Δ')
    {A : Nameless} (hA : Declarable checked G Δ' (A.rename ξ)) :
    Renames checked G (upRen ξ) (A :: Δ) (A.rename ξ :: Δ') := by
  intro n B hB
  cases n with
  | zero =>
    cases hB
    refine ⟨A.rename ξ, rfl, ?_, fun _ => hA⟩
    rw [liftN_rename_up, liftN_zero, upRen_zero, liftN_succ, liftN_zero]
  | succ n =>
    obtain ⟨B', hn, heq, hd⟩ := h n B hB
    refine ⟨B', hn, ?_, hd⟩
    rw [liftN_rename_up, ← heq, upRen_succ, liftN_succ]

theorem HasType.rename {Δ' : List Nameless} {ξ : Nat → Nat} {e A : Nameless}
    (h : HasType checked G Δ e A) (hξ : Renames checked G ξ Δ Δ') :
    HasType checked G Δ' (e.rename ξ) (A.rename ξ) := by
  induction h generalizing Δ' ξ with
  | sort => exact .sort
  | bound hn hs hA =>
    obtain ⟨A', hn', heq, hd⟩ := hξ _ _ hn
    rw [← heq]
    exact (hd ⟨_, hs, hA⟩).bound hn'
  | declared hx hc hs hA =>
    rw [rename_of_closed ξ hc]
    exact .declared hx hc hs hA
  | form h₁ h₂ hA hB ihA ihB =>
    have hA' := ihA hξ
    rw [h₁.rename] at hA'
    have hB' := ihB (hξ.up (hA'.declarable h₁))
    rw [h₂.rename] at hB' ⊢
    exact .form h₁ h₂ hA' hB'
  | abst h₁ hs hA he hP ihA ihe ihP =>
    have hA' := ihA hξ
    rw [h₁.rename] at hA'
    refine .abst h₁ hs hA' (ihe (hξ.up (hA'.declarable h₁))) fun hch => ?_
    have hP' := ihP hch hξ
    rwa [hs.rename] at hP'
  | appl hf ha ihf iha =>
    rw [rename_inst]
    exact .appl (ihf hξ) (iha hξ)
  | conv hs he hc hB ihe ihB =>
    refine .conv hs (ihe hξ) (hc.rename ξ) fun hch => ?_
    have hB' := ihB hch hξ
    rwa [hs.rename] at hB'

/-- Another binder, whatever its type. -/
theorem HasType.weaken {e A : Nameless} (h : HasType checked G Δ e A) (X : Nameless) :
    HasType checked G (X :: Δ) e.lift A.lift := by
  refine h.rename fun n B hB => ⟨B, hB, ?_, id⟩
  exact liftN_succ (n + 1) B

/-- Back under the binders that were left out. -/
theorem HasType.weaken_drop {e s : Nameless} (hs : s.IsSort) (n : Nat)
    (h : HasType checked G (Δ.drop n) e s) (hn : n ≤ Δ.length) :
    HasType checked G Δ (e.liftN n) s := by
  induction n generalizing Δ with
  | zero => rwa [liftN_zero]
  | succ n ih =>
    cases Δ with
    | nil => exact absurd hn (Nat.not_succ_le_zero n)
    | cons X Δ =>
      have h' := (ih h (Nat.le_of_succ_le_succ hn)).weaken X
      rwa [← liftN_succ, hs.lift] at h'

/-- A closed tree under any binders. -/
theorem HasType.weaken_closed {e s : Nameless} (he : e.Below 0) (hs : s.IsSort)
    (h : HasType checked G [] e s) (Δ : List Nameless) : HasType checked G Δ e s := by
  have hξ : Renames checked G id [] Δ := nofun
  have h' := h.rename hξ
  rwa [rename_of_closed id he, hs.rename] at h'

end

/-- Further declarations keep a judgement. -/
theorem HasType.declare {checked : Prop} {G G' : List (String × Nameless)} {Δ : List Nameless}
    {e A : Nameless} (h : HasType checked G Δ e A)
    (hG : ∀ x B, G.lookup x = some B → G'.lookup x = some B) : HasType checked G' Δ e A := by
  induction h generalizing G' with
  | sort => exact .sort
  | bound hn hs hA ih => exact .bound hn hs fun hch => ih hch hG
  | declared hx hc hs hA ih =>
    refine .declared (hG _ _ hx) hc hs fun hch => ih hch fun y B hy => ?_
    rw [Assoc.lookup_erase] at hy ⊢
    split at hy
    · cases hy
    · rename_i hne
      rw [if_neg hne]
      exact hG y B hy
  | form h₁ h₂ hA hB ihA ihB => exact .form h₁ h₂ (ihA hG) (ihB hG)
  | abst h₁ hs hA he hP ihA ihe ihP =>
    exact .abst h₁ hs (ihA hG) (ihe hG) fun hch => ihP hch hG
  | appl hf ha ihf iha => exact .appl (ihf hG) (iha hG)
  | conv hs he hc hB ihe ihB => exact .conv hs (ihe hG) hc fun hch => ihB hch hG

/-! ## 4. Substitution -/

section

variable {checked : Prop} {G : List (String × Nameless)} {Δ : List Nameless}

/-- `σ` puts, for the binders of `Δ` that are checked, trees of their types under `Δ'`. -/
def Fills (checked : Prop) (G : List (String × Nameless)) (σ : Nat → Nameless)
    (Δ Δ' : List Nameless) : Prop :=
  ∀ n A, Δ[n]? = some A → Declarable checked G (Δ.drop (n + 1)) A →
    HasType checked G Δ' (σ n) ((A.liftN (n + 1)).subst σ)

theorem liftN_subst_up (σ : Nat → Nameless) (k : Nat) (A : Nameless) :
    (A.liftN (k + 1)).subst (up σ) = ((A.liftN k).subst σ).lift := by
  rw [liftN_succ, subst_lift]

theorem Fills.up {σ : Nat → Nameless} {Δ' : List Nameless} (h : Fills checked G σ Δ Δ')
    {A : Nameless} (hA : Declarable checked G Δ' (A.subst σ)) :
    Fills checked G (Nameless.up σ) (A :: Δ) (A.subst σ :: Δ') := by
  intro n B hB hd
  rw [liftN_subst_up]
  cases n with
  | zero =>
    cases hB
    have h₀ := Declarable.bound (Δ := A.subst σ :: Δ') (n := 0) rfl hA
    rw [liftN_succ, liftN_zero] at h₀
    rwa [liftN_zero]
  | succ n => exact (h n B hB hd).weaken (A.subst σ)

/-- Well-typed substitution keeps judgements. -/
theorem HasType.subst {Δ' : List Nameless} {σ : Nat → Nameless} {e A : Nameless}
    (h : HasType checked G Δ e A) (hσ : Fills checked G σ Δ Δ') :
    HasType checked G Δ' (e.subst σ) (A.subst σ) := by
  induction h generalizing Δ' σ with
  | sort => exact .sort
  | bound hn hs hA => exact hσ _ _ hn ⟨_, hs, hA⟩
  | declared hx hc hs hA =>
    rw [subst_of_closed σ hc]
    exact .declared hx hc hs hA
  | form h₁ h₂ hA hB ihA ihB =>
    have hA' := ihA hσ
    rw [h₁.subst] at hA'
    have hB' := ihB (hσ.up (hA'.declarable h₁))
    rw [h₂.subst] at hB' ⊢
    exact .form h₁ h₂ hA' hB'
  | abst h₁ hs hA he hP ihA ihe ihP =>
    have hA' := ihA hσ
    rw [h₁.subst] at hA'
    refine .abst h₁ hs hA' (ihe (hσ.up (hA'.declarable h₁))) fun hch => ?_
    have hP' := ihP hch hσ
    rwa [hs.subst] at hP'
  | appl hf ha ihf iha =>
    rw [subst_inst]
    exact .appl (ihf hσ) (iha hσ)
  | conv hs he hc hB ihe ihB =>
    refine .conv hs (ihe hσ) (hc.subst σ) fun hch => ?_
    have hB' := ihB hch hσ
    rwa [hs.subst] at hB'

/-- A tree of the right type for the variable of a binder. -/
theorem Fills.single {a A : Nameless} (ha : HasType checked G Δ a A) :
    Fills checked G (Nameless.single a) (A :: Δ) Δ := by
  intro n C hC hd
  rw [liftN_succ]
  cases n with
  | zero =>
    cases hC
    have heq := inst_lift A a
    rw [Nameless.inst] at heq
    rwa [liftN_zero, heq]
  | succ n =>
    have heq := inst_lift (C.liftN (n + 1)) a
    rw [Nameless.inst] at heq
    rw [heq]
    exact Declarable.bound hC hd

theorem HasType.inst {e a A B : Nameless} (h : HasType checked G (A :: Δ) e B)
    (ha : HasType checked G Δ a A) : HasType checked G Δ (e.inst a) (B.inst a) :=
  h.subst (.single ha)

/-- A binder may be given another type that is convertible to its own. -/
theorem Fills.retype {A A' : Nameless} (hc : Conv A A') (hA' : Declarable checked G Δ A') :
    Fills checked G idx (A :: Δ) (A' :: Δ) := by
  intro n C hC hd
  rw [subst_idx]
  cases n with
  | zero =>
    cases hC
    obtain ⟨s, hs, hA⟩ := hd
    have h₀ := Declarable.bound (Δ := A' :: Δ) (n := 0) rfl hA'
    refine .conv hs h₀ (hc.symm.rename _) fun hch => ?_
    have hw := (hA hch).weaken A'
    rw [hs.lift] at hw
    rwa [liftN_succ, liftN_zero]
  | succ n => exact Declarable.bound hC hd

theorem HasType.retype {e A A' B : Nameless} (h : HasType checked G (A :: Δ) e B)
    (hc : Conv A A') (hA' : Declarable checked G Δ A') : HasType checked G (A' :: Δ) e B := by
  have h' := h.subst (.retype hc hA')
  rwa [subst_idx, subst_idx] at h'

end

end Constructions
