import Constructions.Typing.Fuel
import Constructions.Proofs.Nameless.Reduction

/-!
# What a run yields

The judgements about runs speak of the value they end with and not of the trail they leave.

* `Run.Yields`, `Run.Fails` -- a run ends with a value or a fault; `yields_andThen` takes a sequence
  of runs apart.
* `Nameless.SettlesOn` -- the tree on which the passes of a tree settle; there is one at most.
* `reduce_iterates` -- a normalisation yields the result of a pass that changes nothing;
  `reduce_yields`, `normalize_yields` -- which is that tree, whatever the cap.
* `derive_var`, `derive_lam`, `derive_pi`, `derive_app` -- one inversion for each rule of the
  judgement: all that a rule asks, and nothing else.
-/

namespace Constructions

open Relation

namespace Run

variable {α β : Type}

/-! ## 1. Values of runs -/

/-- The run ends with the value `a`. -/
def Yields (m : Run α) (a : α) : Prop := ∃ events, m = done events (.ok a)

/-- A run ends with one value at most. -/
theorem Yields.unique {m : Run α} {a b : α} (ha : m.Yields a) (hb : m.Yields b) : a = b := by
  obtain ⟨events, rfl⟩ := ha
  obtain ⟨events', h⟩ := hb
  cases h
  rfl

@[simp] theorem yields_ret {a b : α} : (ret a).Yields b ↔ a = b := by
  simp [Yields, ret]

@[simp] theorem not_yields_fail {x : Fault} {a : α} : ¬ (fail x : Run α).Yields a := by
  rintro ⟨events, h⟩
  cases h

@[simp] theorem not_yields_starved {a : α} : ¬ (starved : Run α).Yields a := by
  rintro ⟨events, h⟩
  cases h

@[simp] theorem yields_after {m : Run α} {events : List Event} {a : α} :
    (m.after events).Yields a ↔ m.Yields a := by
  cases m <;> simp [Yields, after]

/-- Two runs in turn yield what the second makes of the value of the first. -/
@[simp] theorem yields_andThen {m : Run α} {f : α → Run β} {b : β} :
    (m.andThen f).Yields b ↔ ∃ a, m.Yields a ∧ (f a).Yields b := by
  constructor
  · rintro ⟨events, h⟩
    obtain ⟨before, a, more, hm, hf, _⟩ := andThen_eq_ok h
    exact ⟨a, ⟨before, hm⟩, more, hf⟩
  · rintro ⟨a, ⟨before, rfl⟩, hf⟩
    exact yields_after.mpr hf

@[simp] theorem yields_note {x : Event} {u : Unit} : (note x).Yields u := ⟨[x], rfl⟩

@[simp] theorem yields_ofTyping {x : Except Fault α} {a : α} :
    (ofTyping x).Yields a ↔ x = .ok a := by
  cases x <;> simp [ofTyping]

@[simp] theorem yields_ofShift {x : Except Underflow α} {a : α} :
    (ofShift x).Yields a ↔ x = .ok a := by
  cases x <;> simp [ofShift]

end Run

open Run

/-! ## 2. Normalisation -/

namespace Nameless

/-- The passes of a tree settle on one tree at most. -/
theorem settled_unique {e : Nameless} {m n : Nat} (hm : (pass^[m] e).pass = pass^[m] e)
    (hn : (pass^[n] e).pass = pass^[n] e) : pass^[m] e = pass^[n] e := by
  rcases Nat.le_total m n with h | h
  · obtain ⟨k, rfl⟩ := Nat.exists_eq_add_of_le' h
    rw [Function.iterate_add_apply, Function.iterate_fixed hm]
  · obtain ⟨k, rfl⟩ := Nat.exists_eq_add_of_le' h
    rw [Function.iterate_add_apply, Function.iterate_fixed hn]

/-- `r` is, up to names, a tree on which the passes of `e` settle. -/
def SettlesOn (e r : Nameless) : Prop := ∃ n, r = pass^[n] e ∧ r.pass = r

theorem SettlesOn.unique {e r s : Nameless} (hr : SettlesOn e r) (hs : SettlesOn e s) : r = s := by
  obtain ⟨m, rfl, hm⟩ := hr
  obtain ⟨n, rfl, hn⟩ := hs
  exact settled_unique hm hn

theorem SettlesOn.steps {e r : Nameless} (h : SettlesOn e r) : Steps e r := by
  obtain ⟨n, rfl, _⟩ := h
  exact steps_iterate_pass n e

theorem SettlesOn.pass_eq {e r : Nameless} (h : SettlesOn e r) : r.pass = r := by
  obtain ⟨_, _, hr⟩ := h
  exact hr

end Nameless

open Nameless (SettlesOn)

theorem Expr.erase_iterate_pass (n : Nat) (e : Expr) :
    (Expr.pass^[n] e).erase = Nameless.pass^[n] e.erase :=
  Function.Semiconj.iterate_right (f := Expr.erase) Expr.erase_pass n e

/-- The loop ends with the result of a pass that changes nothing. -/
theorem settle_yields {cap : Int} {e : Expr} {fuel steps : Nat} {current r : Expr}
    (h : (settle cap e fuel steps current).Yields r) :
    ∃ n, r = Expr.pass^[n + 1] current ∧ r.alphaEq (Expr.pass^[n] current) = true := by
  induction fuel generalizing steps current with
  | zero => simp [settle] at h
  | succ fuel ih =>
    rw [settle] at h
    split at h
    · rename_i heq
      have hr : current.pass = r := by
        split at h <;> simpa using h
      exact ⟨0, hr.symm, hr ▸ heq⟩
    · split at h
      · simp at h
      · obtain ⟨n, hr, heq⟩ := ih h
        exact ⟨n + 1, hr, heq⟩

theorem reduce_iterates {cap : Int} {fuel : Nat} {e r : Expr}
    (h : (reduce cap fuel e).Yields r) :
    ∃ n, r = Expr.pass^[n + 1] e ∧ r.alphaEq (Expr.pass^[n] e) = true :=
  settle_yields h

/-- **A normalisation yields the tree on which passes settle.** -/
theorem reduce_yields {cap : Int} {fuel : Nat} {e r : Expr} (h : (reduce cap fuel e).Yields r) :
    SettlesOn e.erase r.erase := by
  obtain ⟨n, hr, heq⟩ := reduce_iterates h
  have hn : r.erase = Nameless.pass^[n] e.erase := by
    rw [← Expr.erase_iterate_pass]
    exact Expr.alphaEq_iff.mp heq
  refine ⟨n, hn, ?_⟩
  rw [hn, ← Function.iterate_succ_apply' Nameless.pass n e.erase, ← Expr.erase_iterate_pass, ← hr,
    hn]

theorem normalize_yields {cap : Option Int} {fuel : Nat} {e r : Expr}
    (h : (normalize cap fuel e).Yields r) : SettlesOn e.erase r.erase := by
  cases cap with
  | none => simp [normalize] at h
  | some cap =>
    simp only [normalize, bind_eq, yields_andThen] at h
    obtain ⟨_, _, h⟩ := h
    exact reduce_yields h

/-- A tree that passes leave alone is what it is normalised to. -/
theorem erase_eq_of_normalize {cap : Option Int} {fuel : Nat} {e r : Expr}
    (h : (normalize cap fuel e).Yields r) (he : e.erase.pass = e.erase) : r.erase = e.erase :=
  (normalize_yields h).unique ⟨0, rfl, he⟩

/-! ## 3. The rules of the judgement -/

/-- The type of an occurrence is its declaration with the indices moved. -/
theorem typeAt_eq_ok {r : Ref} {D D' : Expr} (h : typeAt r D = .ok D') :
    ∃ k, D' = D.shiftBy k 0 := by
  cases r with
  | free x =>
    cases h
    exact ⟨0, (D.shiftBy_zero 0).symm⟩
  | bound i => exact ⟨i.depth + 1, Expr.shift_eq_ok h⟩

theorem matchAccepted_yields {cap : Option Int} {fuel : Nat} {T : Expr} {accepted : List Expr}
    (h : (matchAccepted cap fuel T accepted).Yields true) :
    ∃ A ∈ accepted, ∃ A', (normalize cap fuel A).Yields A' ∧ T.erase = A'.erase := by
  induction accepted with
  | nil => simp [matchAccepted] at h
  | cons A rest ih =>
    simp only [matchAccepted, bind_eq, yields_andThen] at h
    obtain ⟨A', hA, h⟩ := h
    split at h
    · rename_i heq
      exact ⟨A, List.mem_cons_self, A', hA, Expr.alphaEq_iff.mp heq⟩
    · obtain ⟨B, hB, hrest⟩ := ih h
      exact ⟨B, List.mem_cons_of_mem A hB, hrest⟩

theorem expect_yields {cap : Option Int} {fuel : Nat} {e T s : Expr} {accepted : List Expr}
    (h : (expect cap fuel e accepted T).Yields s) :
    (normalize cap fuel T).Yields s
      ∧ ∃ A ∈ accepted, ∃ A', (normalize cap fuel A).Yields A' ∧ s.erase = A'.erase := by
  simp only [expect, bind_eq, yields_andThen] at h
  obtain ⟨T', hT, ok, hm, h⟩ := h
  cases ok with
  | false => simp at h
  | true =>
    obtain rfl : T' = s := by simpa using h
    exact ⟨hT, matchAccepted_yields hm⟩

/-- A type that was accepted settles on what an accepted type settles on. -/
theorem validate_yields {cap : Option Int} {fuel : Nat} {Γ : Ctx} {e s : Expr}
    {accepted : List Expr} (h : (validate cap fuel Γ e accepted).Yields s) :
    ∃ T, (derive cap fuel Γ e).Yields T ∧ (normalize cap fuel T).Yields s
      ∧ ∃ A ∈ accepted, ∃ A', (normalize cap fuel A).Yields A' ∧ s.erase = A'.erase := by
  simp only [validate, bind_eq, yields_andThen] at h
  obtain ⟨T, hT, h⟩ := h
  exact ⟨T, hT, expect_yields h⟩

/-- A type that was accepted as one of the sorts settles on a sort. -/
theorem validate_sorts_yields {cap : Option Int} {fuel : Nat} {Γ : Ctx} {e s : Expr}
    (h : (validate cap fuel Γ e sorts).Yields s) :
    ∃ T, (derive cap fuel Γ e).Yields T ∧ SettlesOn T.erase s.erase ∧ s.erase.IsSort := by
  obtain ⟨T, hT, hs, A, hA, A', hA', heq⟩ := validate_yields h
  refine ⟨T, hT, normalize_yields hs, ?_⟩
  simp only [sorts, List.mem_cons, List.not_mem_nil, or_false] at hA
  rcases hA with rfl | rfl
  · exact .inl (heq.trans (erase_eq_of_normalize hA' rfl))
  · exact .inr (heq.trans (erase_eq_of_normalize hA' rfl))

section Rules

variable {cap : Option Int} {fuel : Nat} {Γ : Ctx} {T : Expr}

/-- A derivation that ends had fuel. -/
theorem exists_fuel {e : Expr} (h : (derive cap fuel Γ e).Yields T) : ∃ n, fuel = n + 1 := by
  cases fuel with
  | zero => simp [derive] at h
  | succ n => exact ⟨n, rfl⟩

/-- A derivation that ends in a fault with some fuel ends in a type with none. -/
theorem not_yields_of_fault {e : Expr} {events : List Event} {x : Fault}
    (h : derive cap fuel Γ e = done events (.error x)) (fuel' : Nat) (T : Expr) :
    ¬ (derive cap fuel' Γ e).Yields T := by
  rintro ⟨events', h'⟩
  have hmax := derive_of_le (Nat.le_max_left fuel fuel') h
  rw [derive_of_le (Nat.le_max_right fuel fuel') h'] at hmax
  cases hmax

theorem derive_star : (derive cap (fuel + 1) Γ .star).Yields T ↔ T = .box := by
  simp [derive, eq_comm]

theorem not_derive_box : ¬ (derive cap fuel Γ .box).Yields T := by
  cases fuel <;> simp [derive]

theorem not_derive_unknown : ¬ (derive cap fuel Γ .unknown).Yields T := by
  cases fuel <;> simp [derive]

/-- (Var): the declaration is found and checked, then moved to the occurrence. -/
theorem derive_var {r : Ref} :
    (derive cap (fuel + 1) Γ (.var r)).Yields T ↔
      ∃ D s D', Γ.get? r.name = some D
        ∧ (validate cap fuel (Γ.without r.name) D sorts).Yields s
        ∧ typeAt r D = .ok D' ∧ (normalize cap fuel D').Yields T := by
  simp only [derive, validate, bind_eq, yields_andThen, yields_ofTyping, yields_ofShift,
    yields_note, Ctx.get_eq_ok_iff, true_and]
  constructor
  · rintro ⟨D, hD, s, hs, s', hs', D', hD', _, hT⟩
    exact ⟨D, s', D', hD, ⟨s, hs, hs'⟩, hD', hT⟩
  · rintro ⟨D, s', D', hD, ⟨s, hs, hs'⟩, hD', hT⟩
    exact ⟨D, hD, s, hs, s', hs', D', hD', (), hT⟩

/-- (Abst): the body is typed, then the Π that results is checked. -/
theorem derive_lam {b : Binder} {A body : Expr} :
    (derive cap (fuel + 1) Γ (.lam b A body)).Yields T ↔
      ∃ Δ B s, Γ.enter b A = .ok Δ ∧ (derive cap fuel Δ body).Yields B
        ∧ (validate cap fuel Γ (.pi b A B) sorts).Yields s
        ∧ (normalize cap fuel (.pi b A B)).Yields T := by
  simp only [derive, validate, bind_eq, yields_andThen, yields_ofTyping, yields_note, true_and]
  constructor
  · rintro ⟨Δ, hΔ, B, hB, s, hs, s', hs', _, hT⟩
    exact ⟨Δ, B, s', hΔ, hB, ⟨s, hs, hs'⟩, hT⟩
  · rintro ⟨Δ, B, s', hΔ, hB, ⟨s, hs, hs'⟩, hT⟩
    exact ⟨Δ, hΔ, B, hB, s, hs, s', hs', (), hT⟩

/-- (Form): both parts are checked, and the sort is that of the second. -/
theorem derive_pi {b : Binder} {A B : Expr} :
    (derive cap (fuel + 1) Γ (.pi b A B)).Yields T ↔
      ∃ s Δ, (validate cap fuel Γ A sorts).Yields s ∧ Γ.enter b A = .ok Δ
        ∧ (validate cap fuel Δ B sorts).Yields T := by
  simp only [derive, validate, bind_eq, pure_eq, yields_andThen, yields_ofTyping, yields_note,
    yields_ret, true_and]
  constructor
  · rintro ⟨s, hs, s', hs', Δ, hΔ, t, ht, t', ht', _, rfl⟩
    exact ⟨s', Δ, ⟨s, hs, hs'⟩, hΔ, t, ht, ht'⟩
  · rintro ⟨s', Δ, ⟨s, hs, hs'⟩, hΔ, t, ht, ht'⟩
    exact ⟨s, hs, s', hs', Δ, hΔ, t, ht, T, ht', (), rfl⟩

/-- (Appl): the function has a Π for its type and the argument is checked against its domain. -/
theorem derive_app {f a : Expr} :
    (derive cap (fuel + 1) Γ (.app f a)).Yields T ↔
      ∃ F b A B s, (derive cap fuel Γ f).Yields F ∧ (normalize cap fuel F).Yields (.pi b A B)
        ∧ (validate cap fuel Γ a [A]).Yields s
        ∧ (normalize cap fuel (B.instantiate a)).Yields T := by
  simp only [derive, validate, bind_eq, yields_andThen]
  constructor
  · rintro ⟨F, hF, P, hP, h⟩
    split at h
    · rename_i b A B
      simp only [pure_eq, yields_andThen, yields_note, yields_ret, true_and] at h
      obtain ⟨S, hS, s, hs, T', hT, _, rfl⟩ := h
      exact ⟨F, b, A, B, s, hF, hP, ⟨S, hS, hs⟩, hT⟩
    · simp at h
  · rintro ⟨F, b, A, B, s, hF, hP, ⟨S, hS, hs⟩, hT⟩
    refine ⟨F, hF, .pi b A B, hP, ?_⟩
    simp only [pure_eq, yields_andThen, yields_note, yields_ret, true_and]
    exact ⟨S, hS, s, hs, T, hT, (), rfl⟩

end Rules

end Constructions
