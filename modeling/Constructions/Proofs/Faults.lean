import Constructions.Proofs.Known
import Constructions.Proofs.Typing.Closed

/-!
# The faults of a run

An index that is moved below depth zero is a fault of its own, apart from those of typing; and so is
a node of no known form that has to be shown in a typing error.

* `Expr.shiftEach`, `Expr.substEach`, `Expr.passEach` -- shifting, substitution and a pass, in which
  each move of an index is checked where it is made; `shift_eq_each`, `subst_eq_each` and
  `passEach_eq` tie them to the operations that look for the first fault before they start, or look
  for none.
* `Run.FaultsIn P` -- a run ends in no fault outside of `P`; `FaultsIn.andThen` -- two runs in turn.
* `Confines p Shown P` -- what leaves satisfying `p` have to do with faults in `P`;
  `Confines.derive_every`, `Confines.derive_faultsIn` -- a derivation from such leaves yields such
  leaves, and fails by `P` only.
* `only_typing_faults` -- **nothing but a typing error can stop a derivation** from expressions
  without an index of negative depth, however many of their indices point at no binder, unless it
  is an error that cannot be put into words.
-/

namespace Constructions

open Run Nameless

/-! ## 1. Every move of an index is checked -/

namespace Expr

/-- A node of two children that are computed one after the other. -/
def both (mk : Expr → Expr → Expr) (x y : Except Underflow Expr) : Except Underflow Expr :=
  x.bind fun a => y.map fun b => mk a b

/-- `e`, unless a fault was found before. -/
def guarded (fault : Option String) (e : Expr) : Except Underflow Expr :=
  match fault with
  | some x => .error ⟨x⟩
  | none => .ok e

theorem both_guarded (mk : Expr → Expr → Expr) (x y : Option String) (a b : Expr) :
    both mk (guarded x a) (guarded y b) = guarded (x.or y) (mk a b) := by
  cases x <;> cases y <;> rfl

/-- Adds `k` to the depths of at least `c`, one index after the other. -/
def shiftEach (k : Int) : Int → Expr → Except Underflow Expr
  | _, var (.free x) => .ok (var (.free x))
  | c, var (.bound i) =>
    if c ≤ i.depth then (i.shifted k).map fun j => var (.bound j) else .ok (var (.bound i))
  | c, lam b A e => both (lam b) (A.shiftEach k c) (e.shiftEach k (c + 1))
  | c, pi b A e => both (pi b) (A.shiftEach k c) (e.shiftEach k (c + 1))
  | c, app f a => both app (f.shiftEach k c) (a.shiftEach k c)
  | _, star => .ok star
  | _, box => .ok box
  | _, unknown => .ok unknown

theorem shiftEach_eq (k c : Int) (e : Expr) :
    e.shiftEach k c = guarded (e.breach? k c) (e.shiftBy k c) := by
  induction e generalizing c with
  | var r =>
    cases r with
    | free x => rfl
    | bound i =>
      rw [shiftEach, breach?, shiftBy]
      by_cases hc : c ≤ i.depth
      · by_cases hk : i.depth + k < 0
        · rw [if_pos hc, if_pos ⟨hc, hk⟩, Idx.shifted_of_neg hk]
          rfl
        · rw [if_pos hc, if_pos hc, if_neg fun h => hk h.2, Idx.shifted_of_nonneg (by omega)]
          rfl
      · rw [if_neg hc, if_neg hc, if_neg fun h => hc h.1]
        rfl
  | lam b A e ihA ihe => rw [shiftEach, ihA, ihe, both_guarded]; rfl
  | pi b A B ihA ihB => rw [shiftEach, ihA, ihB, both_guarded]; rfl
  | app f a ihf iha => rw [shiftEach, ihf, iha, both_guarded]; rfl
  | star => rfl
  | box => rfl
  | unknown => rfl

/-- **A shift fails where the first move fails**, and one by zero moves nothing. -/
theorem shift_eq_each (k c : Int) (e : Expr) :
    e.shift k c = if k = 0 then .ok e else e.shiftEach k c := by
  rw [shiftEach_eq]
  rfl

/-- Replaces the occurrences of depth `l` by `s` shifted over `k` binders, and lowers each deeper
    index, one occurrence after the other. -/
def substEach (s : Expr) : Int → Nat → Expr → Except Underflow Expr
  | _, _, var (.free x) => .ok (var (.free x))
  | l, k, var (.bound i) =>
    if i.depth = l then s.shift k 0
    else if l < i.depth then i.dec.map fun j => var (.bound j)
    else .ok (var (.bound i))
  | l, k, lam b A e => both (lam b) (substEach s l k A) (substEach s (l + 1) (k + 1) e)
  | l, k, pi b A e => both (pi b) (substEach s l k A) (substEach s (l + 1) (k + 1) e)
  | l, k, app f a => both app (substEach s l k f) (substEach s l k a)
  | _, _, star => .ok star
  | _, _, box => .ok box
  | _, _, unknown => .ok unknown

theorem substEach_eq (s : Expr) (l : Int) (k : Nat) (e : Expr) :
    substEach s l k e = guarded (e.strand? l) (substAt s l k e) := by
  induction e generalizing l k with
  | var r =>
    cases r with
    | free x => rfl
    | bound i =>
      rw [substEach, strand?, substAt]
      by_cases hl : i.depth = l
      · rw [if_pos hl, if_pos hl, if_neg (by omega),
          shift_of_nonneg (Int.natCast_nonneg k) (Int.le_refl 0)]
        rfl
      · rw [if_neg hl, if_neg hl]
        by_cases hlt : l < i.depth
        · by_cases hz : i.depth + -1 < 0
          · rw [if_pos hlt, if_pos ⟨hlt, hz⟩, Idx.dec, Idx.shifted_of_neg hz]
            rfl
          · rw [if_pos hlt, if_pos hlt, if_neg fun h => hz h.2, Idx.dec,
              Idx.shifted_of_nonneg (by omega)]
            rfl
        · rw [if_neg hlt, if_neg hlt, if_neg fun h => hlt h.1]
          rfl
  | lam b A e ihA ihe => rw [substEach, ihA, ihe, both_guarded]; rfl
  | pi b A B ihA ihB => rw [substEach, ihA, ihB, both_guarded]; rfl
  | app f a ihf iha => rw [substEach, ihf, iha, both_guarded]; rfl
  | star => rfl
  | box => rfl
  | unknown => rfl

/-- **A substitution fails where the first move fails**; the copies of `s`, which move deeper, never
    do. -/
theorem subst_eq_each (e : Expr) (l : Int) (s : Expr) : e.subst l s = substEach s l 0 e := by
  rw [substEach_eq]
  rfl

/-- Contracts each redex that no other redex contains, one after the other. -/
def passEach : Expr → Except Underflow Expr
  | lam b A e => both (lam b) A.passEach e.passEach
  | pi b A B => both (pi b) A.passEach B.passEach
  | app (lam _ _ e) a => substEach a 0 0 e
  | app f a => both app f.passEach a.passEach
  | var r => .ok (var r)
  | star => .ok star
  | box => .ok box
  | unknown => .ok unknown

/-- **No move in a pass fails.** -/
theorem passEach_eq (e : Expr) : e.passEach = .ok e.pass := by
  fun_induction Expr.pass e with
  | case1 b A e ihA ihe => rw [passEach, ihA, ihe]; rfl
  | case2 b A B ihA ihB => rw [passEach, ihA, ihB]; rfl
  | case3 b A e a =>
    rw [passEach, ← subst_eq_each, subst_of_nonneg (Int.le_refl 0)]
    rfl
  | case4 f a hf ihf iha =>
    rw [passEach, ihf, iha]
    · rfl
    · exact hf
  | case5 r => rfl
  | case6 => rfl
  | case7 => rfl
  | case8 => rfl

end Expr

/-! ## 2. Faults of runs in turn -/

namespace Run

variable {α β : Type} {P : Fault → Prop}

/-- The run ends in no fault outside of `P`. -/
def FaultsIn (P : Fault → Prop) (m : Run α) : Prop :=
  ∀ events x, m = done events (.error x) → P x

theorem faultsIn_ret (a : α) : (ret a).FaultsIn P := by
  intro events x h
  cases h

theorem faultsIn_starved : (starved : Run α).FaultsIn P := by
  intro events x h
  cases h

theorem faultsIn_note (x : Event) : (note x).FaultsIn P := by
  intro events x h
  cases h

theorem faultsIn_fail {x : Fault} (h : P x) : (fail x : Run α).FaultsIn P := by
  intro events y hy
  cases hy
  exact h

theorem FaultsIn.after {m : Run α} (h : m.FaultsIn P) (events : List Event) :
    (m.after events).FaultsIn P := by
  intro more x hx
  match m with
  | starved => cases hx
  | done before outcome =>
    cases hx
    exact h before x rfl

/-- The second run matters only for the values that the first can end with. -/
theorem FaultsIn.andThen {m : Run α} {f : α → Run β} (hm : m.FaultsIn P)
    (hf : ∀ a, m.Yields a → (f a).FaultsIn P) : (m.andThen f).FaultsIn P := by
  match m with
  | starved => exact faultsIn_starved
  | done events (.error x) =>
    intro events' y hy
    cases hy
    exact hm events x rfl
  | done events (.ok a) => exact (hf a ⟨events, rfl⟩).after events

theorem FaultsIn.mono {Q : Fault → Prop} {m : Run α} (h : m.FaultsIn P) (hPQ : ∀ x, P x → Q x) :
    m.FaultsIn Q :=
  fun events x hx => hPQ x (h events x hx)

end Run

/-- The loop of passes fails by its cap only. -/
theorem settle_faultsIn (cap : Int) (e : Expr) (fuel steps : Nat) (current : Expr) :
    (settle cap e fuel steps current).FaultsIn (· = .reductionLimit e cap) := by
  induction fuel generalizing steps current with
  | zero => exact faultsIn_starved
  | succ fuel ih =>
    rw [settle]
    split
    · split
      · exact faultsIn_ret _
      · exact (faultsIn_note _).andThen fun _ _ => faultsIn_ret _
    · split
      · exact (faultsIn_note _).andThen fun _ _ => faultsIn_fail rfl
      · exact ih (steps + 1) current.pass

/-! ## 3. Derivations -/

namespace Ctx

variable {p : Nameless → Prop} {Γ : Ctx}

/-- The leaves of every declared type satisfy `p`, indices aside. -/
def Every (p : Nameless → Prop) (Γ : Ctx) : Prop := ∀ x D, Γ.get? x = some D → D.erase.Every p

theorem Every.without (h : Γ.Every p) (x : String) : (Γ.without x).Every p := by
  intro y D hD
  exact h y D (get?_of_without hD)

theorem Every.enter (h : Γ.Every p) {b : Binder} {A : Expr} (hA : A.erase.Every p) {Δ : Ctx}
    (hΔ : Γ.enter b A = .ok Δ) : Δ.Every p := by
  intro y D hD
  rcases get?_of_enter hΔ hD with ⟨_, rfl⟩ | hD
  · exact hA
  · exact h y D hD

end Ctx

theorem normalize_every {p : Nameless → Prop} {cap : Option Int} {fuel : Nat} {e r : Expr}
    (h : (normalize cap fuel e).Yields r) (he : e.erase.Every p) : r.erase.Every p :=
  he.steps (normalize_yields h).steps

/-- Leaves that satisfy `p` stay such when a declaration is moved to an occurrence, and a derivation
    from them can only fail by `P`: it reports what is `Shown`, and moves no index too far. -/
structure Confines (p : Nameless → Prop) (Shown : Expr → Prop) (P : Fault → Prop) : Prop where
  star : p .star
  box : p .box
  moved : ∀ {r D D'}, (Expr.var r).erase.Every p → D.erase.Every p → typeAt r D = .ok D' →
    D'.erase.Every p
  shown : ∀ {e : Expr}, e.erase.Every p → Shown e
  typing : ∀ t, P (.typing t)
  underflow : ∀ {r D u}, (Expr.var r).erase.Every p → typeAt r D = .error u → P (.underflow u)
  redeclaration : ∀ {x T U}, Shown T → Shown U → P (.redeclaration x T U)
  incompatible : ∀ {e T accepted}, Shown e → Shown T → (∀ A ∈ accepted, Shown A) →
    P (.incompatible e T accepted)
  notFunction : ∀ {f T}, Shown f → Shown T → P (.notFunction f T)
  reductionLimit : ∀ {e cap}, Shown e → P (.reductionLimit e cap)

namespace Confines

variable {p : Nameless → Prop} {Shown : Expr → Prop} {P : Fault → Prop}

/-- **The leaves of a derived type are like those that it was made of.** -/
theorem derive_every (H : Confines p Shown P) {cap : Option Int} {fuel : Nat} {Γ : Ctx}
    {e T : Expr} (hΓ : Γ.Every p) (he : e.erase.Every p) (h : (derive cap fuel Γ e).Yields T) :
    T.erase.Every p := by
  induction e generalizing fuel Γ T with
  | var r =>
    obtain ⟨fuel, rfl⟩ := exists_fuel h
    obtain ⟨D, s, D', hD, _, hD', hT⟩ := derive_var.mp h
    exact normalize_every hT (H.moved he (hΓ r.name D hD) hD')
  | lam b A body _ ihe =>
    obtain ⟨fuel, rfl⟩ := exists_fuel h
    obtain ⟨Δ, B, s, hΔ, hB, _, hT⟩ := derive_lam.mp h
    have hpi : (Expr.pi b A B).erase.Every p := ⟨he.1, ihe (hΓ.enter he.1 hΔ) he.2 hB⟩
    exact normalize_every hT hpi
  | pi b A B _ ihB =>
    obtain ⟨fuel, rfl⟩ := exists_fuel h
    obtain ⟨s, Δ, _, hΔ, hB⟩ := derive_pi.mp h
    obtain ⟨S, hS, hT, _⟩ := validate_yields hB
    exact normalize_every hT (ihB (hΓ.enter he.1 hΔ) he.2 hS)
  | app f a ihf _ =>
    obtain ⟨fuel, rfl⟩ := exists_fuel h
    obtain ⟨F, b, A, B, s, hF, hP, _, hT⟩ := derive_app.mp h
    have hpi : (Expr.pi b A B).erase.Every p := normalize_every hP (ihf hΓ he.1 hF)
    refine normalize_every hT ?_
    rw [Expr.erase_instantiate]
    exact hpi.2.inst he.2
  | star =>
    obtain ⟨fuel, rfl⟩ := exists_fuel h
    rw [derive_star.mp h]
    exact H.box
  | box => exact (not_derive_box h).elim
  | unknown => exact (not_derive_unknown h).elim

section

variable (H : Confines p Shown P) (cap : Int) (fuel : Nat)

include H

theorem normalize_faultsIn {e : Expr} (he : Shown e) :
    (normalize (some cap) fuel e).FaultsIn P := by
  unfold normalize
  refine (faultsIn_note _).andThen fun _ _ => ?_
  refine (settle_faultsIn cap e fuel 0 e).mono fun x hx => ?_
  rw [hx]
  exact H.reductionLimit he

theorem matchAccepted_faultsIn (actual : Expr) {accepted : List Expr}
    (h : ∀ A ∈ accepted, Shown A) :
    (matchAccepted (some cap) fuel actual accepted).FaultsIn P := by
  induction accepted with
  | nil => exact faultsIn_ret false
  | cons T rest ih =>
    obtain ⟨hT, hrest⟩ := List.forall_mem_cons.mp h
    refine (H.normalize_faultsIn cap fuel hT).andThen fun T' _ => ?_
    split
    · exact faultsIn_ret true
    · exact ih hrest

theorem expect_faultsIn {e T : Expr} {accepted : List Expr} (he : e.erase.Every p)
    (hT : T.erase.Every p) (h : ∀ A ∈ accepted, Shown A) :
    (expect (some cap) fuel e accepted T).FaultsIn P := by
  refine (H.normalize_faultsIn cap fuel (H.shown hT)).andThen fun actual hactual => ?_
  refine (H.matchAccepted_faultsIn cap fuel actual h).andThen fun ok _ => ?_
  split
  · exact faultsIn_ret actual
  · exact faultsIn_fail (H.incompatible (H.shown he) (H.shown (normalize_every hactual hT)) h)

theorem shown_sorts : ∀ A ∈ sorts, Shown A := by
  simp only [sorts, List.forall_mem_cons, List.not_mem_nil, false_imp_iff, implies_true, and_true]
  exact ⟨H.shown H.star, H.shown H.box⟩

theorem get_faultsIn (Γ : Ctx) (x : String) : (ofTyping (Γ.get x)).FaultsIn P := by
  unfold Ctx.get
  split
  · exact faultsIn_ret _
  · exact faultsIn_fail (H.typing _)

theorem enter_faultsIn {Γ : Ctx} (hΓ : Γ.Every p) (b : Binder) {A : Expr} (hA : A.erase.Every p) :
    (ofTyping (Γ.enter b A)).FaultsIn P := by
  cases hΔ : Γ.enter b A with
  | ok Δ => exact faultsIn_ret Δ
  | error fault =>
    cases b with
    | anonymous => cases hΔ
    | named x =>
      obtain ⟨old, hold, _, rfl⟩ := Ctx.put_eq_error hΔ
      exact faultsIn_fail (H.redeclaration (H.shown (hΓ x old hold)) (H.shown hA))

theorem typeAt_faultsIn {r : Ref} (hr : (Expr.var r).erase.Every p) (D : Expr) :
    (ofShift (typeAt r D)).FaultsIn P := by
  cases h : typeAt r D with
  | ok D' => exact faultsIn_ret D'
  | error u => exact faultsIn_fail (H.underflow hr h)

/-- **A derivation from such leaves fails by `P` only.** -/
theorem derive_faultsIn {Γ : Ctx} {e : Expr} (hΓ : Γ.Every p) (he : e.erase.Every p) :
    (derive (some cap) fuel Γ e).FaultsIn P := by
  -- on the fuel: the declared types and the Π of a λ are derived, and are no parts of `e`
  induction fuel generalizing Γ e with
  | zero => exact faultsIn_starved
  | succ fuel ih =>
    cases e with
    | star => exact faultsIn_ret _
    | box => exact faultsIn_fail (H.typing _)
    | unknown => exact faultsIn_fail (H.typing _)
    | var r =>
      refine (H.get_faultsIn Γ r.name).andThen fun D hD => ?_
      have hD' : D.erase.Every p := hΓ r.name D (Ctx.get_eq_ok_iff.mp (yields_ofTyping.mp hD))
      have hwithout := hΓ.without r.name
      refine (ih hwithout hD').andThen fun s hs => ?_
      have hs' := H.derive_every hwithout hD' hs
      refine (H.expect_faultsIn cap fuel hD' hs' H.shown_sorts).andThen fun _ _ => ?_
      refine (H.typeAt_faultsIn he D).andThen fun D₁ hD₁ => ?_
      have hD₁' := H.moved he hD' (yields_ofShift.mp hD₁)
      exact (faultsIn_note _).andThen fun _ _ => H.normalize_faultsIn cap fuel (H.shown hD₁')
    | lam b A body =>
      refine (H.enter_faultsIn hΓ b he.1).andThen fun Δ hΔ => ?_
      have hΔ' : Δ.Every p := hΓ.enter he.1 (yields_ofTyping.mp hΔ)
      refine (ih hΔ' he.2).andThen fun B hB => ?_
      have hpi : (Expr.pi b A B).erase.Every p := ⟨he.1, H.derive_every hΔ' he.2 hB⟩
      refine (ih hΓ hpi).andThen fun s hs => ?_
      have hs' := H.derive_every hΓ hpi hs
      refine (H.expect_faultsIn cap fuel hpi hs' H.shown_sorts).andThen fun _ _ => ?_
      exact (faultsIn_note _).andThen fun _ _ => H.normalize_faultsIn cap fuel (H.shown hpi)
    | pi b A B =>
      refine (ih hΓ he.1).andThen fun s hs => ?_
      have hs' := H.derive_every hΓ he.1 hs
      refine (H.expect_faultsIn cap fuel he.1 hs' H.shown_sorts).andThen fun _ _ => ?_
      refine (H.enter_faultsIn hΓ b he.1).andThen fun Δ hΔ => ?_
      have hΔ' : Δ.Every p := hΓ.enter he.1 (yields_ofTyping.mp hΔ)
      refine (ih hΔ' he.2).andThen fun s hs => ?_
      have hs' := H.derive_every hΔ' he.2 hs
      refine (H.expect_faultsIn cap fuel he.2 hs' H.shown_sorts).andThen fun s _ => ?_
      exact (faultsIn_note _).andThen fun _ _ => faultsIn_ret s
    | app f a =>
      refine (ih hΓ he.1).andThen fun F hF => ?_
      have hF' := H.derive_every hΓ he.1 hF
      refine (H.normalize_faultsIn cap fuel (H.shown hF')).andThen fun N hN => ?_
      have hN' := normalize_every hN hF'
      split
      · rename_i b A B
        refine (ih hΓ he.2).andThen fun T hT => ?_
        have hT' := H.derive_every hΓ he.2 hT
        have hA : ∀ A' ∈ [A], Shown A' := List.forall_mem_singleton.mpr (H.shown hN'.1)
        refine (H.expect_faultsIn cap fuel he.2 hT' hA).andThen fun _ _ => ?_
        have hB : (B.instantiate a).erase.Every p := by
          rw [Expr.erase_instantiate]
          exact hN'.2.inst he.2
        refine (H.normalize_faultsIn cap fuel (H.shown hB)).andThen fun T _ => ?_
        exact (faultsIn_note _).andThen fun _ _ => faultsIn_ret T
      · exact faultsIn_fail (H.notFunction (H.shown he.1) (H.shown hN'))

theorem validate_faultsIn {Γ : Ctx} {e : Expr} {accepted : List Expr} (hΓ : Γ.Every p)
    (he : e.erase.Every p) (h : ∀ A ∈ accepted, Shown A) :
    (validate (some cap) fuel Γ e accepted).FaultsIn P :=
  (H.derive_faultsIn cap fuel hΓ he).andThen fun _ hT =>
    H.expect_faultsIn cap fuel he (H.derive_every hΓ he hT) h

end

end Confines

/-! ## 4. Depths and known forms -/

/-- A leaf is no index of negative depth. -/
def Nameless.NotStray (t : Nameless) : Prop := ∀ n, t ≠ stray n

theorem Nameless.anchored_iff_every {e : Nameless} : e.Anchored ↔ e.Every NotStray := by
  induction e with
  | lam A e ihA ihe | pi A e ihA ihe | app A e ihA ihe =>
    exact and_congr ihA ihe
  | _ => simp [Anchored, Every, NotStray]

/-- No declaration has an index of negative depth. -/
def Ctx.Anchored (Γ : Ctx) : Prop := ∀ x D, Γ.get? x = some D → D.erase.Anchored

theorem Ctx.anchored_iff_every {Γ : Ctx} : Γ.Anchored ↔ Γ.Every NotStray := by
  simp only [Anchored, Every, Nameless.anchored_iff_every]

theorem Ctx.known_iff_every {Γ : Ctx} : Γ.Known ↔ Γ.Every (· ≠ .unknown) := by
  simp only [Known, Every, Expr.known_iff_every]

/-- An occurrence of no negative depth moves its declaration deeper, if at all. -/
theorem typeAt_anchored {r : Ref} (hr : (Expr.var r).erase.Every NotStray) (D : Expr) :
    ∃ k : Nat, typeAt r D = .ok (D.shiftBy k 0) := by
  cases r with
  | free x => exact ⟨0, congrArg Except.ok (D.shiftBy_zero 0).symm⟩
  | bound i =>
    obtain ⟨d, x⟩ := i
    cases d with
    | negSucc n => exact (hr n rfl).elim
    | ofNat n =>
      refine ⟨n + 1, ?_⟩
      rw [typeAt]
      exact Expr.shift_of_nonneg (Int.natCast_nonneg (n + 1)) (Int.le_refl 0) D

/-- Without indices of negative depth no move fails. -/
theorem confines_anchored :
    Confines NotStray (fun _ => True) fun x => (∃ t, x = .typing t) ∨ x = .noPart where
  star _ := Nameless.noConfusion
  box _ := Nameless.noConfusion
  moved {r D D'} hr hD h := by
    obtain ⟨k, hk⟩ := typeAt_anchored hr D
    cases hk.symm.trans h
    rw [Expr.erase_shiftBy_zero]
    exact hD.rename _
  shown _ := trivial
  typing t := .inl ⟨t, rfl⟩
  underflow {r D u} hr h := by
    obtain ⟨k, hk⟩ := typeAt_anchored hr D
    cases hk.symm.trans h
  redeclaration _ _ := (Fault.redeclaration_reports ..).typing_or_noPart
  incompatible _ _ _ := (Fault.incompatible_reports ..).typing_or_noPart
  notFunction _ _ := (Fault.notFunction_reports ..).typing_or_noPart
  reductionLimit _ := (Fault.reductionLimit_reports ..).typing_or_noPart

/-- Without nodes of no known form every cause can be put into words. -/
theorem confines_known : Confines (· ≠ .unknown) Expr.Known (· ≠ .noPart) where
  star := Nameless.noConfusion
  box := Nameless.noConfusion
  moved {r D D'} _ hD h := by
    obtain ⟨k, rfl⟩ := typeAt_eq_ok h
    rw [← Expr.known_iff_every] at hD ⊢
    exact fun hmem => hD (Expr.mem_parts_of_shiftBy (c := .unknown) trivial hmem)
  shown := Expr.known_iff_every.mpr
  typing _ := Fault.noConfusion
  underflow _ _ := Fault.noConfusion
  redeclaration hT hU := (Fault.redeclaration_reports ..).ne_noPart ⟨hT, hU⟩
  incompatible he hT h := (Fault.incompatible_reports ..).ne_noPart ⟨⟨he, hT⟩, h⟩
  notFunction hf hT := (Fault.notFunction_reports ..).ne_noPart ⟨hf, hT⟩
  reductionLimit he := (Fault.reductionLimit_reports ..).ne_noPart he

section

variable (cap : Int) (fuel : Nat) {Γ : Ctx} {e : Expr}

/-- From expressions of known form, every fault of a derivation can be put into words. -/
theorem derive_reportable (hΓ : Γ.Known) (he : e.Known) :
    (derive (some cap) fuel Γ e).FaultsIn (· ≠ .noPart) :=
  confines_known.derive_faultsIn cap fuel (Ctx.known_iff_every.mp hΓ) (Expr.known_iff_every.mp he)

theorem validate_reportable {accepted : List Expr} (hΓ : Γ.Known) (he : e.Known)
    (h : ∀ A ∈ accepted, A.Known) :
    (validate (some cap) fuel Γ e accepted).FaultsIn (· ≠ .noPart) :=
  confines_known.validate_faultsIn cap fuel (Ctx.known_iff_every.mp hΓ)
    (Expr.known_iff_every.mp he) h

end

/-- **Typing errors leave the kernel, unless they cannot be put into words.**  A substitution at a
    depth that is not negative succeeds with each of its moves, and so does a pass, whatever the
    tree.  A normalisation under a given cap fails by this cap only, which it cannot report of an
    expression with a node of no known form.  A derivation or a check that fails, under a cap and
    from expressions without an index of negative depth, fails with a typing error; or a node has no
    parts, but not where every node is of a known form. -/
theorem only_typing_faults (cap : Int) (fuel : Nat) :
    (∀ (e s : Expr) (l : Int), 0 ≤ l →
        ∃ r, e.subst l s = .ok r ∧ Expr.substEach s l 0 e = .ok r)
      ∧ (∀ e : Expr, e.passEach = .ok e.pass)
      ∧ (∀ e events x, reduce cap fuel e = done events (.error x) →
          x.Reports fun he : e.Known => .reductionLimit he.rendered cap)
      ∧ ∀ (Γ : Ctx) (e : Expr), Γ.Anchored → e.erase.Anchored →
          (∀ events x, derive (some cap) fuel Γ e = done events (.error x) →
              (∃ t, x = .typing t) ∨ x = .noPart ∧ ¬ (Γ.Known ∧ e.Known))
            ∧ ∀ accepted events x, validate (some cap) fuel Γ e accepted = done events (.error x) →
                (∃ t, x = .typing t)
                  ∨ x = .noPart ∧ ¬ (Γ.Known ∧ e.Known ∧ ∀ A ∈ accepted, A.Known) := by
  refine ⟨fun e s l hl => ?_, Expr.passEach_eq, fun e events x hx => ?_, fun Γ e hΓ he => ?_⟩
  · rw [← Expr.subst_eq_each]
    exact ⟨_, Expr.subst_of_nonneg hl e s, Expr.subst_of_nonneg hl e s⟩
  · have hlimit : x = .reductionLimit e cap := settle_faultsIn cap e fuel 0 e events x hx
    exact (Fault.reductionLimit_reports e cap).iff_eq.mpr hlimit
  · rw [Ctx.anchored_iff_every] at hΓ
    rw [Nameless.anchored_iff_every] at he
    refine ⟨fun events x hx => ?_, fun accepted events x hx => ?_⟩
    · have hfault := confines_anchored.derive_faultsIn cap fuel hΓ he events x hx
      refine hfault.imp_right fun hpart => ⟨hpart, fun ⟨hΓ', he'⟩ => ?_⟩
      exact derive_reportable cap fuel hΓ' he' events x hx hpart
    · have hall : ∀ A ∈ accepted, True := fun _ _ => trivial
      have hfault := confines_anchored.validate_faultsIn cap fuel hΓ he hall events x hx
      refine hfault.imp_right fun hpart => ⟨hpart, fun ⟨hΓ', he', hA⟩ => ?_⟩
      exact validate_reportable cap fuel hΓ' he' hA events x hx hpart

/-- In `λx:* . 3 0` the index `3` points at no binder.  It is looked up by its name `x`, and the
    fault is that its type `*` is no Π.  The substitution is into a tree with an index of depth
    `-5`. -/
theorem only_typing_faults_dangling :
    let dangling : Expr := .var (.bound ⟨3, "x"⟩)
    let stray : Expr := .var (.bound ⟨-5, "z"⟩)
    let e : Expr := .lam (.named "x") .star (.app dangling (.var (.bound ⟨0, "x"⟩)))
    (∃ r, (Expr.app stray dangling).subst 1 e = .ok r
        ∧ Expr.substEach e 1 0 (.app stray dangling) = .ok r)
      ∧ Ctx.empty.Anchored ∧ e.erase.Anchored ∧ Ctx.empty.Known ∧ e.Known
      ∧ ∃ events x, derive (some 9) 9 .empty e = done events (.error x)
          ∧ x = .typing (.notFunction ⟨dangling, rfl⟩ ⟨.star, rfl⟩) ∧ ∃ t, x = .typing t := by
  intro dangling stray e
  obtain ⟨hsubst, _, _, hderive⟩ := only_typing_faults 9 9
  have hΓ : Ctx.empty.Anchored := by
    intro x D hD
    cases hD
  have hΓ' : Ctx.empty.Known := by
    intro x D hD
    cases hD
  have he : e.erase.Anchored := ⟨trivial, trivial, trivial⟩
  have he' : e.Known := by decide
  refine ⟨hsubst (.app stray dangling) e 1 (by decide), hΓ, he, hΓ', he', _, _, rfl, rfl, ?_⟩
  exact ((hderive .empty e hΓ he).1 _ _ rfl).resolve_right fun h => h.2 ⟨hΓ', he'⟩

/-- Where `?` is a node of no known form, the second declaration in `λx:? . λx:* . x` is refused
    with a fault that is no typing error, and so does `(λx:? . x x x) (λx:? . x x x)` give up. -/
theorem unknown_not_reported :
    let x : Expr := .var (.free "x")
    let e : Expr := .abs (.named "x") .unknown (.abs (.named "x") .star x)
    let half : Expr := .abs (.named "x") .unknown (.app (.app x x) x)
    Ctx.empty.Anchored ∧ e.erase.Anchored
      ∧ (∃ events, derive (some 9) 9 .empty e = done events (.error .noPart))
      ∧ (∃ events, reduce 3 9 (.app half half) = done events (.error .noPart))
      ∧ ¬ ∃ t, Fault.noPart = .typing t := by
  intro x e half
  refine ⟨fun x D hD => ?_, ⟨trivial, trivial, trivial⟩, ⟨_, rfl⟩, ⟨_, rfl⟩, ?_⟩
  · cases hD
  · rintro ⟨t, ht⟩
    cases ht

/-- From an index of depth `-2`, in `λy:* . λx:y . -2`, the type of `x` would be moved below
    zero. -/
example :
    let e : Expr := .lam (.named "y") .star
      (.lam (.named "x") (.var (.bound ⟨0, "y"⟩)) (.var (.bound ⟨-2, "x"⟩)))
    ∃ events, derive (some 9) 9 .empty e = done events (.error (.underflow ⟨"y"⟩)) :=
  ⟨_, rfl⟩

end Constructions
