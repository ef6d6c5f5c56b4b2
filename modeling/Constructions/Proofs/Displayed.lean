import Constructions.Proofs.Typing.Yields

/-!
# Displayed names

A context is asked for the names that an expression displays, so it matters which names can turn up.

* `Expr.shown β` -- the names that occurrences display, free or bound, and of each binder what `β`
  gives for it.
* `Expr.displayed` -- all names that are displayed, those of named binders included.
* `mem_shown_substAt`, `mem_shown_pass`, `mem_shown_normalize` -- no operation on expressions brings
  a name that was not there.
-/

namespace Constructions

open Run

/-- The name of a named binder; the anonymous one has none. -/
def Binder.names : Binder → List String
  | named x => [x]
  | anonymous => []

namespace Expr

/-- The names that occurrences display and what `β` gives for binders, in reading order. -/
def shown (β : Binder → List String) : Expr → List String
  | var r => [r.name]
  | lam b A e => β b ++ (A.shown β ++ e.shown β)
  | pi b A B => β b ++ (A.shown β ++ B.shown β)
  | app f a => f.shown β ++ a.shown β
  | _ => []

/-- Every name that an occurrence or a named binder displays. -/
def displayed (e : Expr) : List String := e.shown Binder.names

variable {β : Binder → List String}

theorem shown_shiftBy (k c : Int) (e : Expr) : (e.shiftBy k c).shown β = e.shown β := by
  induction e generalizing c with
  | var r =>
    cases r with
    | free x => rfl
    | bound i =>
      rw [shiftBy]
      split <;> rfl
  | lam b A e ihA ihe => simp only [shiftBy, shown, ihA, ihe]
  | pi b A B ihA ihB => simp only [shiftBy, shown, ihA, ihB]
  | app f a ihf iha => simp only [shiftBy, shown, ihf, iha]
  | _ => rfl

theorem mem_shown_substAt {x : String} {s e : Expr} {l : Int} {k : Nat}
    (h : x ∈ (substAt s l k e).shown β) : x ∈ e.shown β ∨ x ∈ s.shown β := by
  induction e generalizing l k with
  | var r =>
    cases r with
    | free y => exact .inl h
    | bound i =>
      rw [substAt] at h
      split at h
      · rw [shown_shiftBy] at h
        exact .inr h
      · split at h <;> exact .inl h
  | lam b A e ihA ihe | pi b A e ihA ihe =>
    simp only [substAt, shown, List.mem_append] at h ⊢
    rcases h with h | h | h
    · exact .inl (.inl h)
    · exact (ihA h).imp (fun h => .inr (.inl h)) id
    · exact (ihe h).imp (fun h => .inr (.inr h)) id
  | app f a ihf iha =>
    simp only [substAt, shown, List.mem_append] at h ⊢
    rcases h with h | h
    · exact (ihf h).imp .inl id
    · exact (iha h).imp .inr id
  | _ => cases h

theorem mem_shown_pass {x : String} {e : Expr} (h : x ∈ e.pass.shown β) : x ∈ e.shown β := by
  fun_induction Expr.pass e with
  | case1 b A e ihA ihe | case2 b A e ihA ihe =>
    simp only [shown, List.mem_append] at h ⊢
    exact h.imp id fun h => h.imp ihA ihe
  | case3 b A e a =>
    simp only [shown, List.mem_append]
    exact (mem_shown_substAt h).imp (fun h => .inr (.inr h)) id
  | case4 f a hf ihf iha => exact List.mem_append.mpr ((List.mem_append.mp h).imp ihf iha)
  | case5 r => exact h
  | case6 => exact h
  | case7 => exact h
  | case8 => exact h

theorem mem_shown_iterate_pass {x : String} {e : Expr} {n : Nat}
    (h : x ∈ (Expr.pass^[n] e).shown β) : x ∈ e.shown β := by
  induction n generalizing e with
  | zero => exact h
  | succ n ih => exact mem_shown_pass (ih h)

end Expr

variable {β : Binder → List String}

/-- Normalisation brings no names. -/
theorem mem_shown_normalize {cap : Option Int} {fuel : Nat} {e r : Expr}
    (h : (normalize cap fuel e).Yields r) {x : String} (hx : x ∈ r.shown β) : x ∈ e.shown β := by
  cases cap with
  | none => simp [normalize] at h
  | some cap =>
    simp only [normalize, bind_eq, yields_andThen] at h
    obtain ⟨_, _, h⟩ := h
    obtain ⟨n, rfl, _⟩ := reduce_iterates h
    exact Expr.mem_shown_iterate_pass hx

theorem shown_typeAt {r : Ref} {D D' : Expr} (h : typeAt r D = .ok D') :
    D'.shown β = D.shown β := by
  obtain ⟨k, rfl⟩ := typeAt_eq_ok h
  exact Expr.shown_shiftBy k 0 D

end Constructions
