import Constructions.Typing.Derive

/-!
# Fuel

Fuel decides whether a run finishes, never how.

* `Run.Congruence` -- a relation between runs that sequencing respects; `derive_congruence` -- such
  a relation holds between two derivations of one type when it holds between their normalisations.
* `Run.Below` -- the first run is starved, or it is the second one.
* `settle_below`, `derive_below` -- more fuel keeps a finished run as it is.
-/

namespace Constructions

namespace Run

variable {α β : Type}

/-- A relation between runs that holds of equal ones and that sequencing respects. -/
structure Congruence (R : (α : Type) → Run α → Run α → Prop) : Prop where
  refl : ∀ {α : Type} (m : Run α), R α m m
  andThen : ∀ {α β : Type} {m n : Run α} {f g : α → Run β}, R α m n → (∀ a, R β (f a) (g a)) →
    R β (m.andThen f) (n.andThen g)

/-- The first run has finished like the second one, if it has finished at all. -/
def Below (m n : Run α) : Prop := m = starved ∨ m = n

theorem Below.refl (m : Run α) : m.Below m := Or.inr rfl

theorem Below.eq_done {m n : Run α} {events : List Event} {outcome : Except Fault α}
    (h : m.Below n) (hm : m = done events outcome) : n = done events outcome := by
  rcases h with rfl | rfl
  · cases hm
  · exact hm

theorem Below.after {m n : Run α} (h : m.Below n) (events : List Event) :
    (m.after events).Below (n.after events) := by
  rcases h with rfl | rfl
  · exact Or.inl rfl
  · exact Or.inr rfl

/-- Sequencing respects the order in both parts. -/
theorem Below.andThen {m n : Run α} {f g : α → Run β} (h : m.Below n)
    (hf : ∀ a, (f a).Below (g a)) : (m.andThen f).Below (n.andThen g) := by
  rcases h with rfl | rfl
  · exact Or.inl rfl
  · match m with
    | starved => exact Or.inl rfl
    | done events (.error x) => exact Or.inr rfl
    | done events (.ok a) => exact (hf a).after events

theorem below_congruence : Congruence fun _ m n => m.Below n where
  refl := Below.refl
  andThen := Below.andThen

end Run

open Run

/-! ## 1. Derivations that are related step by step -/

section

variable {R : (α : Type) → Run α → Run α → Prop} {cap cap' : Option Int} {fuel fuel' : Nat}

theorem matchAccepted_congruence (hR : Congruence R)
    (hnorm : ∀ e, R _ (normalize cap fuel e) (normalize cap' fuel' e)) (actual : Expr)
    (accepted : List Expr) :
    R _ (matchAccepted cap fuel actual accepted) (matchAccepted cap' fuel' actual accepted) := by
  induction accepted with
  | nil => exact hR.refl _
  | cons T rest ih =>
    refine hR.andThen (hnorm T) fun T => ?_
    split
    · exact hR.refl _
    · exact ih

theorem expect_congruence (hR : Congruence R)
    (hnorm : ∀ e, R _ (normalize cap fuel e) (normalize cap' fuel' e)) (e : Expr)
    (accepted : List Expr) (T : Expr) :
    R _ (expect cap fuel e accepted T) (expect cap' fuel' e accepted T) := by
  refine hR.andThen (hnorm T) fun actual => ?_
  exact hR.andThen (matchAccepted_congruence hR hnorm actual accepted) fun _ => hR.refl _

/-- **Two derivations are related when their normalisations are**, the second with `d` more fuel
    throughout. -/
theorem derive_congruence (hR : Congruence R) {d : Nat}
    (hstarved : ∀ Γ e, R _ starved (derive cap' d Γ e))
    (hnorm : ∀ fuel e, R _ (normalize cap fuel e) (normalize cap' (fuel + d) e)) (fuel : Nat)
    (Γ : Ctx) (e : Expr) : R _ (derive cap fuel Γ e) (derive cap' (fuel + d) Γ e) := by
  have hexpect (fuel : Nat) (e : Expr) (accepted : List Expr) (T : Expr) :=
    expect_congruence hR (hnorm fuel) e accepted T
  induction fuel generalizing Γ e with
  | zero =>
    rw [Nat.zero_add]
    exact hstarved Γ e
  | succ fuel ih =>
    rw [Nat.succ_add]
    cases e with
    | star => exact hR.refl _
    | box => exact hR.refl _
    | unknown => exact hR.refl _
    | var r =>
      refine hR.andThen (hR.refl _) fun T => ?_
      refine hR.andThen (ih ..) fun s => ?_
      refine hR.andThen (hexpect ..) fun _ => ?_
      refine hR.andThen (hR.refl _) fun T => ?_
      exact hR.andThen (hR.refl _) fun _ => hnorm ..
    | lam b A body =>
      refine hR.andThen (hR.refl _) fun Δ => ?_
      refine hR.andThen (ih ..) fun B => ?_
      refine hR.andThen (ih ..) fun s => ?_
      refine hR.andThen (hexpect ..) fun _ => ?_
      exact hR.andThen (hR.refl _) fun _ => hnorm ..
    | pi b A B =>
      refine hR.andThen (ih ..) fun s => ?_
      refine hR.andThen (hexpect ..) fun _ => ?_
      refine hR.andThen (hR.refl _) fun Δ => ?_
      refine hR.andThen (ih ..) fun s => ?_
      exact hR.andThen (hexpect ..) fun _ => hR.refl _
    | app f a =>
      refine hR.andThen (ih ..) fun F => ?_
      refine hR.andThen (hnorm ..) fun F => ?_
      split
      · refine hR.andThen (ih ..) fun T => ?_
        refine hR.andThen (hexpect ..) fun _ => ?_
        exact hR.andThen (hnorm ..) fun _ => hR.refl _
      · exact hR.refl _

end

/-! ## 2. More fuel -/

theorem settle_below (cap : Int) (e : Expr) (fuel steps : Nat) (current : Expr) :
    (settle cap e fuel steps current).Below (settle cap e (fuel + 1) steps current) := by
  induction fuel generalizing steps current with
  | zero => exact Or.inl rfl
  | succ fuel ih =>
    rw [settle, settle]
    split
    · exact Below.refl _
    · split
      · exact Below.refl _
      · exact ih ..

theorem reduce_below (cap : Int) (fuel : Nat) (e : Expr) :
    (reduce cap fuel e).Below (reduce cap (fuel + 1) e) :=
  settle_below ..

theorem normalize_below (cap : Option Int) (fuel : Nat) (e : Expr) :
    (normalize cap fuel e).Below (normalize cap (fuel + 1) e) := by
  unfold normalize
  refine Below.andThen (Below.refl _) fun _ => ?_
  cases cap with
  | none => exact Below.refl _
  | some cap => exact reduce_below ..

/-- More fuel keeps a finished derivation as it is. -/
theorem derive_below (cap : Option Int) (fuel : Nat) (Γ : Ctx) (e : Expr) :
    (derive cap fuel Γ e).Below (derive cap (fuel + 1) Γ e) :=
  derive_congruence below_congruence (fun _ _ => Or.inl rfl) (normalize_below cap) fuel Γ e

/-- Any more fuel keeps a finished derivation as it is. -/
theorem derive_of_le {cap : Option Int} {fuel fuel' : Nat} (h : fuel ≤ fuel') {Γ : Ctx} {e : Expr}
    {events : List Event} {outcome : Except Fault Expr}
    (hd : derive cap fuel Γ e = done events outcome) :
    derive cap fuel' Γ e = done events outcome := by
  induction h with
  | refl => exact hd
  | step _ ih => exact (derive_below ..).eq_done ih

end Constructions
