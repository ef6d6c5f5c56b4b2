import Constructions.Context

/-!
# Runs

A computation of the kernel ends with a value or a fault, and leaves a trail of what it did on the
way.  It may also not end within the fuel it was given; then there is nothing to report.  Runs are
sequenced: the second one takes the value of the first and adds to its trail.

* `Event` -- what a run notes.
* `Run` -- a computation; `Run.andThen` -- one after the other.
-/

namespace Constructions

/-- What a run notes on its way. -/
inductive Event
  /-- The step cap was asked of the configuration. -/
  | capRead
  /-- `e` settled after `steps` changing passes, at least one. -/
  | reduced (e : Expr) (steps : Nat)
  /-- `e` had not settled after `steps` changing passes. -/
  | gaveUp (e : Expr) (steps : Nat)
  /-- The variable `x` was given the type `T`. -/
  | var (x : String) (T : Expr)
  /-- The λ `e` was given the type `T`. -/
  | abst (e T : Expr)
  /-- The Π `e` was given the sort `s`. -/
  | form (e s : Expr)
  /-- The application `e` was given the type `T`. -/
  | appl (e T : Expr)
deriving DecidableEq, Repr

/-- A computation of the kernel. -/
inductive Run (α : Type)
  /-- The fuel did not suffice. -/
  | starved
  /-- What was noted, in order, and how it ended. -/
  | done (events : List Event) (outcome : Except Fault α)

namespace Run

variable {α β : Type}

/-- Ends at once with a value. -/
def ret (a : α) : Run α := done [] (.ok a)

/-- Ends at once with a fault. -/
def fail (x : Fault) : Run α := done [] (.error x)

/-- Notes an event. -/
def note (x : Event) : Run Unit := done [x] (.ok ())

/-- With events noted before everything else. -/
def after (events : List Event) : Run α → Run α
  | starved => starved
  | done more outcome => done (events ++ more) outcome

/-- A run followed by one that depends on its value; a fault ends both. -/
def andThen (m : Run α) (f : α → Run β) : Run β :=
  match m with
  | starved => starved
  | done events (.error x) => done events (.error x)
  | done events (.ok a) => (f a).after events

instance : Monad Run where
  pure := ret
  bind := andThen

@[simp] theorem after_nil (m : Run α) : m.after [] = m := by
  cases m <;> rfl

@[simp] theorem pure_eq (a : α) : (pure a : Run α) = ret a := rfl

@[simp] theorem bind_eq (m : Run α) (f : α → Run β) : m >>= f = m.andThen f := rfl

@[simp] theorem ret_andThen (a : α) (f : α → Run β) : (ret a).andThen f = f a := after_nil _

@[simp] theorem fail_andThen (x : Fault) (f : α → Run β) : (fail x).andThen f = fail x := rfl

@[simp] theorem starved_andThen (f : α → Run β) : (starved : Run α).andThen f = starved := rfl

@[simp] theorem note_andThen (x : Event) (f : Unit → Run β) :
    (note x).andThen f = (f ()).after [x] := rfl

/-- Two runs end with a value exactly when both do, and the trail is that of both. -/
theorem andThen_eq_ok {m : Run α} {f : α → Run β} {events : List Event} {b : β}
    (h : m.andThen f = done events (.ok b)) :
    ∃ before a more, m = done before (.ok a) ∧ f a = done more (.ok b)
      ∧ events = before ++ more := by
  match m with
  | starved => cases h
  | done before (.error x) => cases h
  | done before (.ok a) =>
    simp only [andThen] at h
    cases hf : f a with
    | starved => rw [hf] at h; cases h
    | done more outcome =>
      rw [hf] at h
      cases h
      exact ⟨before, a, more, rfl, hf, rfl⟩

/-- A judgement on contexts within a run. -/
def ofTyping : Except Fault α → Run α
  | .ok a => ret a
  | .error x => fail x

/-- A move of indices within a run. -/
def ofShift : Except Underflow α → Run α
  | .ok a => ret a
  | .error u => fail (.underflow u)

end Run

end Constructions
