import Constructions.Proofs.Known
import Constructions.Proofs.Nameless.Settled
import Constructions.Proofs.Typing.Yields

/-!
# Derivations without abstractions

Where neither the expression nor a declaration contains a λ, no derivation meets a redex, and every
derivation ends -- also when the declarations refer to each other in circles.

* `Expr.LambdaFree` -- no part is a λ; kept by shifts and substitutions, and untouched by a pass.
* `Run.Ends Q` -- a run ends, with a value in `Q` or with a fault that is not the cap's.
* `Ctx.weight` -- the nodes of all declarations.  A variable gives its declaration away when it
  looks up its type, and a binder adds to the context what it takes off the expression.
* `derive_ends` -- so a derivation needs no more fuel than the expression and its context have
  nodes.
-/

namespace Constructions

open Run

/-! ## 1. Expressions -/

namespace Expr

/-- No part is a λ. -/
def LambdaFree : Expr → Prop
  | lam .. => False
  | pi _ A B => A.LambdaFree ∧ B.LambdaFree
  | app f a => f.LambdaFree ∧ a.LambdaFree
  | _ => True

namespace LambdaFree

variable {e s : Expr}

theorem shiftBy (h : e.LambdaFree) (k c : Int) : (e.shiftBy k c).LambdaFree := by
  induction e generalizing c with
  | var r =>
    cases r with
    | free x => exact h
    | bound i =>
      rw [Expr.shiftBy]
      split <;> exact h
  | lam b A e => exact h.elim
  | pi b A B ihA ihB => exact ⟨ihA h.1 c, ihB h.2 (c + 1)⟩
  | app f a ihf iha => exact ⟨ihf h.1 c, iha h.2 c⟩
  | _ => exact h

theorem substAt (h : e.LambdaFree) (hs : s.LambdaFree) (l : Int) (k : Nat) :
    (substAt s l k e).LambdaFree := by
  induction e generalizing l k with
  | var r =>
    cases r with
    | free x => exact h
    | bound i =>
      rw [Expr.substAt]
      split
      · exact hs.shiftBy k 0
      · split <;> exact h
  | lam b A e => exact h.elim
  | pi b A B ihA ihB => exact ⟨ihA h.1 l k, ihB h.2 (l + 1) (k + 1)⟩
  | app f a ihf iha => exact ⟨ihf h.1 l k, iha h.2 l k⟩
  | _ => exact h

/-- **Without a λ there is no redex.** -/
theorem pass_eq (h : e.LambdaFree) : e.pass = e := by
  fun_induction Expr.pass e with
  | case1 b A e => exact h.elim
  | case2 b A B ihA ihB => rw [ihA h.1, ihB h.2]
  | case3 b A e a => exact h.1.elim
  | case4 f a hf ihf iha => rw [ihf h.1, iha h.2]
  | case5 r => rfl
  | case6 => rfl
  | case7 => rfl
  | case8 => rfl

end LambdaFree

/-- The number of nodes. -/
def weight (e : Expr) : Nat := e.erase.size

theorem weight_pi (b : Binder) (A B : Expr) : (pi b A B).weight = A.weight + B.weight + 1 := rfl

theorem weight_app (f a : Expr) : (app f a).weight = f.weight + a.weight + 1 := rfl

theorem weight_pos (e : Expr) : 0 < e.weight := Nameless.size_pos e.erase

end Expr

/-! ## 2. Contexts -/

namespace Ctx

variable {Γ Δ : Ctx}

/-- No declared type contains a λ. -/
def LambdaFree (Γ : Ctx) : Prop := ∀ x T, Γ.get? x = some T → T.LambdaFree

theorem LambdaFree.without (h : Γ.LambdaFree) (x : String) : (Γ.without x).LambdaFree := by
  intro y T hT
  exact h y T (get?_of_without hT)

theorem LambdaFree.enter (h : Γ.LambdaFree) {b : Binder} {A : Expr} (hA : A.LambdaFree)
    (hΔ : Γ.enter b A = .ok Δ) : Δ.LambdaFree := by
  intro y T hT
  rcases get?_of_enter hΔ hT with ⟨_, rfl⟩ | hT
  · exact hA
  · exact h y T hT

/-- The number of nodes of a list of declarations. -/
def entriesWeight : List (String × Expr) → Nat
  | [] => 0
  | (_, T) :: rest => T.weight + entriesWeight rest

/-- The number of nodes of all declared types. -/
def weight (Γ : Ctx) : Nat := entriesWeight Γ.entries

theorem entriesWeight_erase_le (x : String) (entries : List (String × Expr)) :
    entriesWeight (Assoc.erase x entries) ≤ entriesWeight entries := by
  induction entries with
  | nil => exact Nat.le_refl 0
  | cons d rest ih =>
    rw [Assoc.erase, List.filter_cons]
    split
    · exact Nat.add_le_add_left ih d.2.weight
    · exact Nat.le_trans ih (Nat.le_add_left _ _)

/-- A declaration that is dropped takes its weight along. -/
theorem entriesWeight_erase {x : String} {T : Expr} {entries : List (String × Expr)}
    (h : entries.lookup x = some T) :
    T.weight + entriesWeight (Assoc.erase x entries) ≤ entriesWeight entries := by
  induction entries with
  | nil => cases h
  | cons d rest ih =>
    obtain ⟨y, U⟩ := d
    rw [List.lookup_cons] at h
    rw [Assoc.erase, List.filter_cons]
    by_cases hxy : x = y
    · subst hxy
      rw [beq_self_eq_true] at h ⊢
      cases h
      exact Nat.add_le_add_left (entriesWeight_erase_le x rest) T.weight
    · rw [beq_eq_false_iff_ne.mpr hxy] at h
      rw [beq_eq_false_iff_ne.mpr (Ne.symm hxy)]
      have hrest : T.weight + entriesWeight (Assoc.erase x rest) ≤ entriesWeight rest := ih h
      show T.weight + (U.weight + entriesWeight (Assoc.erase x rest))
        ≤ U.weight + entriesWeight rest
      omega

theorem weight_without {x : String} {T : Expr} (h : Γ.get? x = some T) :
    T.weight + (Γ.without x).weight ≤ Γ.weight :=
  entriesWeight_erase h

/-- A declaration adds no more than its own weight, in a new place or in an old one. -/
theorem entriesWeight_put_le (x : String) (A : Expr) (entries : List (String × Expr)) :
    entriesWeight (Assoc.put x A entries) ≤ A.weight + entriesWeight entries := by
  induction entries with
  | nil => exact Nat.le_refl _
  | cons d rest ih =>
    obtain ⟨y, U⟩ := d
    rw [Assoc.put]
    split <;> simp only [entriesWeight] <;> omega

theorem weight_enter {b : Binder} {A : Expr} (h : Γ.enter b A = .ok Δ) :
    Δ.weight ≤ A.weight + Γ.weight := by
  cases b with
  | anonymous =>
    cases h
    exact Nat.le_add_left _ _
  | named x =>
    obtain ⟨_, rfl⟩ := put_eq_ok h
    exact entriesWeight_put_le x A Γ.entries

end Ctx

/-! ## 3. Runs that end -/

namespace Fault

/-- The fault is not that of a cap. -/
def NotLimit (x : Fault) : Prop := ∀ e cap, x ≠ .typing (.reductionLimit e cap)

theorem notLimit_typing {t : TypingError} (h : t.kind ≠ .reductionLimit) : (typing t).NotLimit := by
  rintro e cap ⟨⟩
  exact h rfl

theorem Reports.notLimit {known : Prop} {cause : known → TypingError} {x : Fault}
    (hx : x.Reports cause) (h : ∀ hknown, (cause hknown).kind ≠ .reductionLimit) : x.NotLimit := by
  rcases hx with ⟨hknown, rfl⟩ | ⟨_, rfl⟩
  · exact notLimit_typing (h hknown)
  · exact fun _ _ => Fault.noConfusion

end Fault

namespace Ctx

variable {Γ : Ctx}

/-- Neither a look-up nor a declaration gives up at a cap. -/
theorem get_notLimit {x : String} {fault : Fault} (h : Γ.get x = .error fault) :
    fault.NotLimit := by
  unfold get at h
  split at h
  · cases h
  · cases h
    exact Fault.notLimit_typing ErrorKind.noConfusion

theorem enter_notLimit {b : Binder} {A : Expr} {fault : Fault} (h : Γ.enter b A = .error fault) :
    fault.NotLimit := by
  cases b with
  | anonymous => cases h
  | named x =>
    obtain ⟨old, _, _, rfl⟩ := put_eq_error h
    exact (Fault.redeclaration_reports x old A).notLimit fun _ => ErrorKind.noConfusion

end Ctx

namespace Run

variable {α β : Type} {Q : α → Prop} {R : β → Prop}

/-- The run ends, with a value in `Q` or with a fault that is not the cap's. -/
inductive Ends (Q : α → Prop) : Run α → Prop
  | value (events : List Event) {a : α} (ha : Q a) : Ends Q (done events (.ok a))
  | fault (events : List Event) {x : Fault} (hx : x.NotLimit) : Ends Q (done events (.error x))

theorem Ends.after {m : Run α} (h : m.Ends Q) (events : List Event) : (m.after events).Ends Q := by
  cases h with
  | value more ha => exact .value (events ++ more) ha
  | fault more hx => exact .fault (events ++ more) hx

theorem Ends.andThen {m : Run α} {f : α → Run β} (hm : m.Ends Q) (hf : ∀ a, Q a → (f a).Ends R) :
    (m.andThen f).Ends R := by
  cases hm with
  | value events ha => exact (hf _ ha).after events
  | fault events hx => exact .fault events hx

theorem Ends.mono {Q' : α → Prop} {m : Run α} (h : m.Ends Q) (hQ : ∀ a, Q a → Q' a) :
    m.Ends Q' := by
  cases h with
  | value events ha => exact .value events (hQ _ ha)
  | fault events hx => exact .fault events hx

theorem Ends.exists_done {m : Run α} (h : m.Ends Q) :
    ∃ events outcome, m = done events outcome
      ∧ ∀ e cap, outcome ≠ .error (.typing (.reductionLimit e cap)) := by
  cases h with
  | value events ha => exact ⟨events, _, rfl, fun e cap h => by cases h⟩
  | fault events hx => exact ⟨events, _, rfl, fun e cap h => hx e cap (Except.error.inj h)⟩

theorem ends_ofTyping {x : Except Fault α} (hok : ∀ a, x = .ok a → Q a)
    (herror : ∀ fault, x = .error fault → fault.NotLimit) : (ofTyping x).Ends Q := by
  cases x with
  | ok a => exact .value [] (hok a rfl)
  | error fault => exact .fault [] (herror fault rfl)

theorem ends_ofShift {x : Except Underflow α} (hok : ∀ a, x = .ok a → Q a) :
    (ofShift x).Ends Q := by
  cases x with
  | ok a => exact .value [] (hok a rfl)
  | error u => exact .fault [] fun e cap h => Fault.noConfusion h

end Run

/-! ## 4. Derivations -/

section

variable (cap : Option Int) {fuel : Nat} (hfuel : 0 < fuel)

include hfuel

/-- A normalisation of an expression without a λ ends at once, where it began. -/
theorem normalize_ends {e : Expr} (he : e.LambdaFree) : (normalize cap fuel e).Ends (· = e) := by
  obtain ⟨fuel, rfl⟩ := Nat.exists_eq_succ_of_ne_zero (Nat.ne_of_gt hfuel)
  cases cap with
  | none => exact .fault [.capRead] fun e cap h => Fault.noConfusion h
  | some cap =>
    have hsettle : reduce cap (fuel + 1) e = .ret e := by
      rw [reduce, settle, he.pass_eq, if_pos e.alphaEq_refl]
      rfl
    show Ends (· = e) ((reduce cap (fuel + 1) e).after [.capRead])
    rw [hsettle]
    exact .value [.capRead] rfl

theorem matchAccepted_ends (actual : Expr) {accepted : List Expr}
    (h : ∀ T ∈ accepted, T.LambdaFree) :
    (matchAccepted cap fuel actual accepted).Ends fun _ => True := by
  induction accepted with
  | nil => exact .value [] trivial
  | cons T rest ih =>
    refine (normalize_ends cap hfuel (h T List.mem_cons_self)).andThen fun _ _ => ?_
    split
    · exact .value [] trivial
    · exact ih fun U hU => h U (List.mem_cons_of_mem T hU)

theorem expect_ends (e : Expr) {accepted : List Expr} (h : ∀ T ∈ accepted, T.LambdaFree)
    {T : Expr} (hT : T.LambdaFree) : (expect cap fuel e accepted T).Ends (· = T) := by
  refine (normalize_ends cap hfuel hT).andThen fun actual hactual => ?_
  refine (matchAccepted_ends cap hfuel actual h).andThen fun ok _ => ?_
  split
  · exact .value [] hactual
  · exact .fault [] ((Fault.incompatible_reports ..).notLimit fun _ => ErrorKind.noConfusion)

end

/-- **A derivation without a λ ends**, with a type without a λ, when it has more fuel than the
    expression and its context have nodes. -/
theorem derive_ends (cap : Option Int) {fuel : Nat} {Γ : Ctx} {e : Expr} (hΓ : Γ.LambdaFree)
    (he : e.LambdaFree) (hfuel : e.weight + Γ.weight < fuel) :
    (derive cap fuel Γ e).Ends Expr.LambdaFree := by
  have hsorts : ∀ T ∈ sorts, T.LambdaFree := by
    intro T hT
    rcases (List.mem_cons.mp hT).imp id List.mem_singleton.mp with rfl | rfl <;> trivial
  -- on the fuel: every rule that is applied takes a node off the expression or the context, also
  -- where a declaration is larger than the variable it is looked up for
  induction fuel generalizing Γ e with
  | zero => exact absurd hfuel (Nat.not_lt_zero _)
  | succ fuel ih =>
    have hweight := e.weight_pos
    have hpos : 0 < fuel := by omega
    cases e with
    | star => exact .value [] trivial
    | box => exact .fault [] (Fault.notLimit_typing ErrorKind.noConfusion)
    | unknown => exact .fault [] (Fault.notLimit_typing ErrorKind.noConfusion)
    | lam b A body => exact he.elim
    | var r =>
      have hget : (ofTyping (Γ.get r.name)).Ends fun D => Γ.get? r.name = some D :=
        ends_ofTyping (fun D hD => Ctx.get_eq_ok_iff.mp hD) fun _ => Ctx.get_notLimit
      refine hget.andThen fun D hD => ?_
      have hDfree : D.LambdaFree := hΓ r.name D hD
      -- the declaration is checked without itself, so no circle is gone round twice
      have hless : D.weight + (Γ.without r.name).weight ≤ Γ.weight := Ctx.weight_without hD
      refine (ih (hΓ.without r.name) hDfree (by omega)).andThen fun s hs => ?_
      refine (expect_ends cap hpos D hsorts hs).andThen fun _ _ => ?_
      have hmoved : (ofShift (typeAt r D)).Ends Expr.LambdaFree := by
        refine ends_ofShift fun D' hD' => ?_
        obtain ⟨k, rfl⟩ := typeAt_eq_ok hD'
        exact hDfree.shiftBy k 0
      refine hmoved.andThen fun D' hD' => ?_
      refine (Ends.value [_] trivial).andThen (Q := fun _ => True) fun _ _ => ?_
      exact (normalize_ends cap hpos hD').mono fun _ h => h ▸ hD'
    | pi b A B =>
      rw [Expr.weight_pi] at hfuel
      refine (ih hΓ he.1 (by omega)).andThen fun s hs => ?_
      refine (expect_ends cap hpos A hsorts hs).andThen fun _ _ => ?_
      have henter : (ofTyping (Γ.enter b A)).Ends fun Δ => Γ.enter b A = .ok Δ :=
        ends_ofTyping (fun Δ hΔ => hΔ) fun _ => Ctx.enter_notLimit
      refine henter.andThen fun Δ hΔ => ?_
      have hmore : Δ.weight ≤ A.weight + Γ.weight := Ctx.weight_enter hΔ
      refine (ih (hΓ.enter he.1 hΔ) he.2 (by omega)).andThen fun s hs => ?_
      refine (expect_ends cap hpos B hsorts hs).andThen fun s' hs' => ?_
      exact .value [_] (hs' ▸ hs)
    | app f a =>
      rw [Expr.weight_app] at hfuel
      refine (ih hΓ he.1 (by omega)).andThen fun F hF => ?_
      refine (normalize_ends cap hpos hF).andThen fun F' hF' => ?_
      subst hF'
      cases F' with
      | pi b A B =>
        refine (ih hΓ he.2 (by omega)).andThen fun T hT => ?_
        have haccepted : ∀ U ∈ [A], U.LambdaFree := fun U hU => List.mem_singleton.mp hU ▸ hF.1
        refine (expect_ends cap hpos a haccepted hT).andThen fun _ _ => ?_
        have hB : (B.instantiate a).LambdaFree := hF.2.substAt he.2 0 0
        refine (normalize_ends cap hpos hB).andThen fun T' hT' => ?_
        exact .value [_] (hT' ▸ hB)
      | _ =>
        refine .fault [] ((Fault.notFunction_reports ..).notLimit fun _ => ?_)
        exact ErrorKind.noConfusion

/-- **Typing without abstractions ends.**  Whatever the cap, or without one, and however the
    declarations refer to each other: a derivation for an expression without a λ, from declarations
    without a λ, comes to an end, and never by giving up on a normalisation. -/
theorem derive_terminates (cap : Option Int) {Γ : Ctx} {e : Expr} (hΓ : Γ.LambdaFree)
    (he : e.LambdaFree) :
    ∃ events outcome,
      (∀ fuel, e.weight + Γ.weight < fuel → derive cap fuel Γ e = done events outcome)
        ∧ ∀ e' n, outcome ≠ .error (.typing (.reductionLimit e' n)) := by
  obtain ⟨events, outcome, hrun, hlimit⟩ :=
    (derive_ends cap hΓ he (Nat.lt_succ_self (e.weight + Γ.weight))).exists_done
  exact ⟨events, outcome, fun fuel hfuel => derive_of_le hfuel hrun, hlimit⟩

/-- Next to declarations `x : y` and `y : x`, and without a cap: `P a` has the type `*`, and `x` is
    refused, because the declaration of `y` is checked without that of `x`. -/
theorem derive_terminates_circular :
    let A : Expr := .var (.free "A")
    let x : Expr := .var (.free "x")
    let Γ : Ctx :=
      ⟨[("A", .star), ("P", .arrow A .star), ("a", A), ("x", .var (.free "y")), ("y", x)]⟩
    let e : Expr := .app (.var (.free "P")) (.var (.free "a"))
    Γ.LambdaFree ∧ e.LambdaFree
      ∧ (∀ fuel, 10 < fuel → (derive (some 0) fuel Γ e).Yields .star)
      ∧ ∀ fuel, 8 < fuel →
          ∃ events, derive (some 0) fuel Γ x
            = done events (.error (.typing (.unknownVariable "x"))) := by
  intro A x Γ e
  have hentries : ∀ d ∈ Γ.entries, d.2.LambdaFree := by
    simp [Γ, A, x, Expr.arrow, Expr.shiftBy, Expr.LambdaFree]
  have hΓ : Γ.LambdaFree := fun y T hT =>
    hentries (y, T) ((Assoc.lookup_eq_some_iff_mem (by decide)).mp hT)
  obtain ⟨events, outcome, hrun, _⟩ := derive_terminates (some 0) hΓ (e := e) ⟨trivial, trivial⟩
  obtain ⟨events', outcome', hrun', _⟩ := derive_terminates (some 0) hΓ (e := x) trivial
  refine ⟨hΓ, ⟨trivial, trivial⟩, fun fuel hfuel => ?_, fun fuel hfuel => ?_⟩
  · have hstar : (derive (some 0) 11 Γ e).Yields .star := ⟨_, rfl⟩
    rwa [hrun 11 (by decide), ← hrun fuel hfuel] at hstar
  · have hrefused : ∃ events, derive (some 0) 9 Γ x
        = done events (.error (.typing (.unknownVariable "x"))) := ⟨_, rfl⟩
    rwa [hrun' 9 (by decide), ← hrun' fuel hfuel] at hrefused

end Constructions
