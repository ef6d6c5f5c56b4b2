import Constructions.Proofs.Displayed

/-!
# Exchange and weakening

A derivation reads its context only by looking up names, so neither the order of the declarations
nor declarations of other names can make a difference -- not to the type, not to the fault, and not
to what is noted on the way.

* `Run.andThen_congr` -- two sequences of runs are the same when they go on alike from each value
  that the first run can end with.
* `derive_displayed` -- a derived type displays names of the expression and of the declarations
  that these lead to, and no others.
* `Agree P Γ Γ'` -- the contexts have the same declarations for the names in `P`, and these lead
  to no other names; `Agree.enter_andThen` -- going below a binder keeps this, or both contexts refuse
  the binder with the same fault.
* `derive_agree` -- **a derivation for names in `P` is the same run under both.**
* `derive_exchange` -- so under the same declarations in any order, with further ones of other names.
-/

namespace Constructions

open Run

namespace Run

variable {α β : Type}

/-- Runs that go on alike from every value of the first one are the same. -/
theorem andThen_congr {m m' : Run α} {f g : α → Run β} (hm : m = m')
    (h : ∀ a, m.Yields a → f a = g a) : m.andThen f = m'.andThen g := by
  subst hm
  match m with
  | starved => rfl
  | done events (.error x) => rfl
  | done events (.ok a) => exact congrArg (after events) (h a ⟨events, rfl⟩)

end Run

/-! ## 1. Names of derived types -/

/-- The declarations of names in `P` display names in `P` only. -/
def Ctx.Keeps (Γ : Ctx) (P : String → Prop) : Prop :=
  ∀ x D, P x → Γ.get? x = some D → ∀ y ∈ D.displayed, P y

namespace Ctx.Keeps

variable {P : String → Prop} {Γ : Ctx}

theorem without (h : Γ.Keeps P) (x : String) : (Γ.without x).Keeps P := by
  intro y D hy hD
  exact h y D hy (Ctx.get?_of_without hD)

theorem enter (h : Γ.Keeps P) {b : Binder} {A : Expr} (hA : ∀ y ∈ A.displayed, P y) {Δ : Ctx}
    (hΔ : Γ.enter b A = .ok Δ) : Δ.Keeps P := by
  intro y D hy hD
  rcases Ctx.get?_of_enter hΔ hD with ⟨_, rfl⟩ | hD
  · exact hA
  · exact h y D hy hD

end Ctx.Keeps

/-- The names of a λ or a Π are those of its binder, its domain and its body. -/
theorem Expr.forall_displayed_binder {P : String → Prop} {b : Binder} {A e : Expr} :
    (∀ y ∈ b.names ++ (A.shown Binder.names ++ e.shown Binder.names), P y) ↔
      (∀ y ∈ b.names, P y) ∧ (∀ y ∈ A.displayed, P y) ∧ ∀ y ∈ e.displayed, P y := by
  rw [List.forall_mem_append, List.forall_mem_append]
  rfl

/-- **A derived type displays no names but those that the expression leads to.** -/
theorem derive_displayed {P : String → Prop} {cap : Option Int} {fuel : Nat} {Γ : Ctx} {e T : Expr}
    (hΓ : Γ.Keeps P) (he : ∀ y ∈ e.displayed, P y) (h : (derive cap fuel Γ e).Yields T) :
    ∀ y ∈ T.displayed, P y := by
  induction e generalizing fuel Γ T with
  | var r =>
    obtain ⟨fuel, rfl⟩ := exists_fuel h
    obtain ⟨D, _, D', hD, _, hD', hT⟩ := derive_var.mp h
    intro y hy
    have hy' : y ∈ D'.displayed := mem_shown_normalize hT hy
    rw [Expr.displayed, shown_typeAt hD'] at hy'
    exact hΓ r.name D (he r.name List.mem_cons_self) hD y hy'
  | lam b A body ihA ihe =>
    obtain ⟨fuel, rfl⟩ := exists_fuel h
    obtain ⟨Δ, B, _, hΔ, hB, _, hT⟩ := derive_lam.mp h
    obtain ⟨hb, hA, hbody⟩ := Expr.forall_displayed_binder.mp he
    have hpi : ∀ y ∈ (Expr.pi b A B).displayed, P y :=
      Expr.forall_displayed_binder.mpr ⟨hb, hA, ihe (hΓ.enter hA hΔ) hbody hB⟩
    exact fun y hy => hpi y (mem_shown_normalize hT hy)
  | pi b A B ihA ihB =>
    obtain ⟨fuel, rfl⟩ := exists_fuel h
    obtain ⟨_, Δ, _, hΔ, hB⟩ := derive_pi.mp h
    obtain ⟨_, hA, hbody⟩ := Expr.forall_displayed_binder.mp he
    obtain ⟨S, hS, hT, _⟩ := validate_yields hB
    exact fun y hy => ihB (hΓ.enter hA hΔ) hbody hS y (mem_shown_normalize hT hy)
  | app f a ihf iha =>
    obtain ⟨fuel, rfl⟩ := exists_fuel h
    obtain ⟨F, b, A, B, _, hF, hpi, _, hT⟩ := derive_app.mp h
    obtain ⟨hf, ha⟩ := List.forall_mem_append.mp he
    have hFP := ihf hΓ hf hF
    intro y hy
    rcases Expr.mem_shown_substAt (mem_shown_normalize hT hy) with hy | hy
    · refine hFP y (mem_shown_normalize hpi ?_)
      exact List.mem_append_right _ (List.mem_append_right _ hy)
    · exact ha y hy
  | star =>
    obtain ⟨fuel, rfl⟩ := exists_fuel h
    rw [derive_star.mp h]
    exact fun y hy => absurd hy List.not_mem_nil
  | box => exact (not_derive_box h).elim
  | unknown => exact (not_derive_unknown h).elim

/-! ## 2. Contexts that agree -/

/-- The contexts have the same declarations for the names in `P`, which lead to no other names. -/
structure Agree (P : String → Prop) (Γ Γ' : Ctx) : Prop where
  same : ∀ x, P x → Γ.get? x = Γ'.get? x
  keeps : Γ.Keeps P

namespace Agree

variable {P : String → Prop} {Γ Γ' : Ctx}

theorem get (h : Agree P Γ Γ') {x : String} (hx : P x) : Γ.get x = Γ'.get x := by
  unfold Ctx.get
  rw [h.same x hx]

theorem without (h : Agree P Γ Γ') (x : String) : Agree P (Γ.without x) (Γ'.without x) := by
  refine ⟨fun y hy => ?_, h.keeps.without x⟩
  rw [Ctx.get?_without, Ctx.get?_without, h.same y hy]

/-- A declaration on both sides succeeds or fails alike. -/
theorem put (h : Agree P Γ Γ') {x : String} {A : Expr} (hx : P x) (hA : ∀ y ∈ A.displayed, P y) :
    (∃ fault, Γ.put x A = .error fault ∧ Γ'.put x A = .error fault) ∨
      ∃ Δ Δ', Γ.put x A = .ok Δ ∧ Γ'.put x A = .ok Δ' ∧ Agree P Δ Δ' := by
  by_cases hold : ∀ old, Γ.get? x = some old → old.alphaEq A = true
  · have hΔ := Ctx.put_of_agrees hold
    have hΔ' := Ctx.put_of_agrees (Γ := Γ') (h.same x hx ▸ hold)
    refine .inr ⟨_, _, hΔ, hΔ', fun y hy => ?_, h.keeps.enter (b := .named x) hA hΔ⟩
    rw [Ctx.get?_of_put hΔ, Ctx.get?_of_put hΔ', h.same y hy]
  · simp only [not_forall, Bool.not_eq_true] at hold
    obtain ⟨old, hget, hne⟩ := hold
    exact .inl ⟨_, Ctx.put_of_disagrees hget hne,
      Ctx.put_of_disagrees ((h.same x hx).symm.trans hget) hne⟩

/-- **Below a binder the contexts still agree**, or both refuse the binder with the same fault. -/
theorem enter_andThen (h : Agree P Γ Γ') {b : Binder} {A : Expr} (hb : ∀ y ∈ b.names, P y)
    (hA : ∀ y ∈ A.displayed, P y) {β : Type} {f g : Ctx → Run β}
    (hfg : ∀ Δ Δ', Agree P Δ Δ' → f Δ = g Δ') :
    (ofTyping (Γ.enter b A)).andThen f = (ofTyping (Γ'.enter b A)).andThen g := by
  cases b with
  | anonymous =>
    have heq := hfg Γ Γ' h
    simpa only [Ctx.enter, ofTyping, ret_andThen] using heq
  | named x =>
    rcases h.put (hb x List.mem_cons_self) hA with ⟨fault, hΔ, hΔ'⟩ | ⟨Δ, Δ', hΔ, hΔ', hag⟩
    · rw [Ctx.enter, Ctx.enter, hΔ, hΔ']
      rfl
    · have heq := hfg Δ Δ' hag
      rw [Ctx.enter, Ctx.enter, hΔ, hΔ']
      simpa only [ofTyping, ret_andThen] using heq

end Agree

/-- **A derivation is the same run under contexts that agree on the names it can ask for.** -/
theorem derive_agree {P : String → Prop} (cap : Option Int) (fuel : Nat) {Γ Γ' : Ctx} {e : Expr}
    (h : Agree P Γ Γ') (he : ∀ y ∈ e.displayed, P y) :
    derive cap fuel Γ e = derive cap fuel Γ' e := by
  -- on the fuel: declared types and the Π of an abstraction are derived, and are no parts of `e`
  induction fuel generalizing Γ Γ' e with
  | zero => rfl
  | succ fuel ih =>
    cases e with
    | star => rfl
    | box => rfl
    | unknown => rfl
    | var r =>
      have hr : P r.name := he r.name List.mem_cons_self
      refine andThen_congr (congrArg ofTyping (h.get hr)) fun D hD => ?_
      have hD' : Γ.get? r.name = some D := Ctx.get_eq_ok_iff.mp (yields_ofTyping.mp hD)
      exact andThen_congr (ih (h.without r.name) (h.keeps r.name D hr hD')) fun _ _ => rfl
    | lam b A body =>
      obtain ⟨hb, hA, hbody⟩ := Expr.forall_displayed_binder.mp he
      refine h.enter_andThen hb hA fun Δ Δ' h' => ?_
      refine andThen_congr (ih h' hbody) fun B hB => ?_
      have hpi : ∀ y ∈ (Expr.pi b A B).displayed, P y :=
        Expr.forall_displayed_binder.mpr ⟨hb, hA, derive_displayed h'.keeps hbody hB⟩
      exact andThen_congr (ih h hpi) fun _ _ => rfl
    | pi b A B =>
      obtain ⟨hb, hA, hB⟩ := Expr.forall_displayed_binder.mp he
      refine andThen_congr (ih h hA) fun _ _ => andThen_congr rfl fun _ _ => ?_
      refine h.enter_andThen hb hA fun Δ Δ' h' => ?_
      exact andThen_congr (ih h' hB) fun _ _ => rfl
    | app f a =>
      obtain ⟨hf, ha⟩ := List.forall_mem_append.mp he
      refine andThen_congr (ih h hf) fun _ _ => andThen_congr rfl fun F _ => ?_
      cases F with
      | pi b A B => exact andThen_congr (ih h ha) fun _ _ => rfl
      | _ => rfl

/-! ## 3. Permuted and further declarations -/

/-- Contexts with the same declarations in any order, and others of names outside of `P`, agree. -/
theorem Agree.of_perm {P : String → Prop} {Γ Γ' : Ctx} {more : List (String × Expr)}
    (hperm : Γ'.entries.Perm (Γ.entries ++ more)) (hkeys : (Γ'.entries.map (·.1)).Nodup)
    (hmore : ∀ d ∈ more, ¬ P d.1) (hdecl : ∀ d ∈ Γ.entries, ∀ y ∈ d.2.displayed, P y) :
    Agree P Γ Γ' := by
  have hnodup : ((Γ.entries ++ more).map (·.1)).Nodup := (hperm.map _).nodup_iff.mp hkeys
  have hΓ : (Γ.entries.map (·.1)).Nodup := by
    rw [List.map_append] at hnodup
    exact (List.nodup_append.mp hnodup).1
  refine ⟨fun x hx => Option.ext fun D => ?_, fun x D _ hD => ?_⟩
  · have hout : (x, D) ∉ more := fun hmem => hmore (x, D) hmem hx
    rw [Ctx.get?, Ctx.get?, Assoc.lookup_eq_some_iff_mem hΓ, Assoc.lookup_eq_some_iff_mem hkeys,
      hperm.mem_iff, List.mem_append, or_iff_left hout]
  · exact hdecl (x, D) ((Assoc.lookup_eq_some_iff_mem hΓ).mp hD)

/-- **Exchange and weakening.**  The order of the declarations and declarations of names that the
    expression and the other declarations do not display, well-formed or not, change nothing in a
    derivation: it has the same value or fault and leaves the same trail. -/
theorem derive_exchange (cap : Option Int) (fuel : Nat) {Γ Γ' : Ctx} {e : Expr}
    {more : List (String × Expr)} (hperm : Γ'.entries.Perm (Γ.entries ++ more))
    (hkeys : (Γ'.entries.map (·.1)).Nodup) (he : ∀ d ∈ more, d.1 ∉ e.displayed)
    (hdecl : ∀ d ∈ more, ∀ D ∈ Γ.entries, d.1 ∉ D.2.displayed) :
    derive cap fuel Γ' e = derive cap fuel Γ e
      ∧ ∀ accepted, validate cap fuel Γ' e accepted = validate cap fuel Γ e accepted := by
  have hagree : Agree (fun y => ∀ d ∈ more, d.1 ≠ y) Γ Γ' :=
    .of_perm hperm hkeys (fun d hd h => h d hd rfl)
      fun D hD y hy d hd heq => hdecl d hd D hD (heq ▸ hy)
  have hderive : derive cap fuel Γ e = derive cap fuel Γ' e :=
    derive_agree cap fuel hagree fun y hy d hd heq => he d hd (heq ▸ hy)
  refine ⟨hderive.symm, fun accepted => ?_⟩
  rw [validate, validate, hderive]

/-- The declarations `N : *` and `n : N` the other way round, with `k : □` between them, give the same
    run for `λx : N . n`, which has a type, and for `n n`, which has none. -/
theorem derive_exchange_reversed :
    let N : Expr := .var (.free "N")
    let n : Expr := .var (.free "n")
    let Γ : Ctx := ⟨[("N", .star), ("n", N)]⟩
    let Γ' : Ctx := ⟨[("n", N), ("k", .box), ("N", .star)]⟩
    (derive (some 9) 9 Γ' (.abs (.named "x") N n)).Yields (.all (.named "x") N N)
      ∧ (∃ events, derive (some 9) 9 Γ' (.app n n)
          = .done events (.error (.typing (.notFunction ⟨n, rfl⟩ ⟨N, rfl⟩))))
      ∧ ∀ accepted, validate (some 9) 9 Γ' n accepted = validate (some 9) 9 Γ n accepted := by
  intro N n Γ Γ'
  have hperm : Γ'.entries.Perm (Γ.entries ++ [("k", .box)]) := by decide
  have hsame (e : Expr) (he : "k" ∉ e.displayed) :=
    derive_exchange (some 9) 9 hperm (by decide) (e := e)
      (fun d hd => List.mem_singleton.mp hd ▸ he) (by decide)
  refine ⟨?_, ?_, (hsame n (by decide)).2⟩
  · rw [(hsame (.abs (.named "x") N n) (by decide)).1]
    exact ⟨_, rfl⟩
  · rw [(hsame (.app n n) (by decide)).1]
    exact ⟨_, rfl⟩

end Constructions
