import Constructions.Proofs.Coherence
import Constructions.Proofs.Typing.Calculus
import Constructions.Proofs.Typing.Yields

/-!
# A context by name and a scope by position

A derivation works under a context that is keyed by name.  Around the expression it has reached
stands a *scope*, the binders on the way with their types, innermost first.

* `Tracks Γ₀ S Γ` -- under the declarations `Γ₀`, the context `Γ` has for each name the type of
  every binder of `S` that has this name, and of its declaration, up to displayed names.  Binders of
  one name share an entry only because they agree.
* `Tracks.enter` -- going below a binder keeps this, or the context refuses the binder.
* `Infers` -- the computation of types with a scope in place of a context keyed by name.
* `derive_infers` -- **a derivation that ends has computed the type that its scope gives.**
* `derive_declared` -- a free occurrence that no binder around it shadows is found among the
  declarations.
-/

namespace Constructions

open Run Nameless

/-- The declarations of a context without displayed names. -/
def Ctx.erase (Γ : Ctx) : List (String × Nameless) := Γ.entries.map fun (x, T) => (x, T.erase)

theorem Ctx.lookup_erase (Γ : Ctx) (x : String) :
    Γ.erase.lookup x = (Γ.get? x).map Expr.erase := by
  unfold Ctx.erase Ctx.get?
  induction Γ.entries with
  | nil => rfl
  | cons d rest ih =>
    obtain ⟨y, T⟩ := d
    simp only [List.map_cons, List.lookup_cons, ih]
    split <;> rfl

/-! ## 1. Scopes -/

/-- The binders around an expression with their types, innermost first. -/
abbrev Scope := List (Binder × Expr)

/-- The binders of a scope. -/
def Scope.binders (S : Scope) : List Binder := S.map Prod.fst

/-- The types of a scope, without displayed names. -/
def Scope.types (S : Scope) : List Nameless := S.map fun d => d.2.erase

theorem Scope.types_getElem? {S : Scope} {n : Nat} {d : Binder × Expr} (h : S[n]? = some d) :
    S.types[n]? = some d.2.erase := by
  unfold types
  rw [List.getElem?_map, h]
  rfl

/-- The context has, up to displayed names, the type of each declaration and of each named binder
    under its name, and no other names. -/
structure Tracks (Γ₀ : Ctx) (S : Scope) (Γ : Ctx) : Prop where
  declared : ∀ x T, Γ₀.get? x = some T → ∃ D, Γ.get? x = some D ∧ D.erase = T.erase
  bound : ∀ (n : Nat) (x : String) (A : Expr), S[n]? = some (.named x, A) →
    ∃ D, Γ.get? x = some D ∧ D.erase = A.erase
  origin : ∀ x D, Γ.get? x = some D → Γ₀.contains x = true ∨ .named x ∈ S.binders

theorem Tracks.start (Γ : Ctx) : Tracks Γ [] Γ where
  declared _ T h := ⟨T, h, rfl⟩
  bound _ _ _ h := nomatch h
  origin x D h := .inl (by rw [Ctx.contains, h, Option.isSome_some])

/-- A name that was put agrees with what the context had under it. -/
theorem Ctx.put_agrees {Γ Δ : Ctx} {x : String} {A D : Expr} (h : Γ.put x A = .ok Δ)
    (hx : Γ.get? x = some D) : D.erase = A.erase :=
  Expr.alphaEq_iff.mp ((Ctx.put_eq_ok h).1 D hx)

/-- An entry survives a further declaration, up to displayed names. -/
theorem Ctx.get?_put {Γ Δ : Ctx} {x y : String} {A D : Expr} (h : Γ.put x A = .ok Δ)
    (hy : Γ.get? y = some D) : ∃ D', Δ.get? y = some D' ∧ D'.erase = D.erase := by
  rw [Ctx.get?_of_put h]
  split
  · rename_i heq
    subst heq
    exact ⟨A, rfl, (Ctx.put_agrees h hy).symm⟩
  · exact ⟨D, hy, rfl⟩

/-- **Going below a binder keeps the context in step with the scope.** -/
theorem Tracks.enter {Γ₀ Γ Δ : Ctx} {S : Scope} {b : Binder} {A : Expr} (h : Tracks Γ₀ S Γ)
    (hΔ : Γ.enter b A = .ok Δ) : Tracks Γ₀ ((b, A) :: S) Δ := by
  cases b with
  | anonymous =>
    cases hΔ
    refine ⟨h.declared, fun n x B hn => ?_, fun x D hD => ?_⟩
    · cases n with
      | zero => cases hn
      | succ n => exact h.bound n x B hn
    · exact (h.origin x D hD).imp id (List.mem_cons_of_mem _)
  | named y =>
    have hkeep {x : String} {T : Expr} (hT : ∃ D, Γ.get? x = some D ∧ D.erase = T.erase) :
        ∃ D, Δ.get? x = some D ∧ D.erase = T.erase := by
      obtain ⟨D, hD, heq⟩ := hT
      obtain ⟨D', hD', heq'⟩ := Ctx.get?_put hΔ hD
      exact ⟨D', hD', heq'.trans heq⟩
    refine ⟨fun x T hx => hkeep (h.declared x T hx), fun n x B hn => ?_, fun x D hD => ?_⟩
    · cases n with
      | zero =>
        cases hn
        exact ⟨A, by rw [Ctx.get?_of_put hΔ, if_pos rfl], rfl⟩
      | succ n => exact hkeep (h.bound n x B hn)
    · rw [Ctx.get?_of_put hΔ] at hD
      split at hD
      · rename_i heq
        subst heq
        exact .inr List.mem_cons_self
      · exact (h.origin x D hD).imp id (List.mem_cons_of_mem _)

/-! ## 2. Computing types in a scope -/

/-- The computation of types with binders found by position.  It follows the rules, and compares
    types by what they settle on. -/
inductive Infers (G : List (String × Nameless)) : List Nameless → Nameless → Nameless → Prop
  | sort {Δ : List Nameless} : Infers G Δ star box
  | bound {Δ : List Nameless} {n : Nat} {A T : Nameless} (hn : Δ[n]? = some A)
      (hT : SettlesOn (A.liftN (n + 1)) T) : Infers G Δ (idx n) T
  | declared {Δ : List Nameless} {x : String} {A T : Nameless} (hx : G.lookup x = some A)
      (hT : SettlesOn A T) : Infers G Δ (const x) T
  | form {Δ : List Nameless} {A B S₁ S₂ s₁ s₂ : Nameless} (hA : Infers G Δ A S₁)
      (hS₁ : SettlesOn S₁ s₁) (h₁ : s₁.IsSort) (hB : Infers G (A :: Δ) B S₂)
      (hS₂ : SettlesOn S₂ s₂) (h₂ : s₂.IsSort) : Infers G Δ (pi A B) s₂
  | abst {Δ : List Nameless} {A e B S₁ s₁ T : Nameless} (hA : Infers G Δ A S₁)
      (hS₁ : SettlesOn S₁ s₁) (h₁ : s₁.IsSort) (he : Infers G (A :: Δ) e B) (hB : B ≠ box)
      (hT : SettlesOn (pi A B) T) : Infers G Δ (lam A e) T
  | appl {Δ : List Nameless} {f a F A B S A' T : Nameless} (hf : Infers G Δ f F)
      (hF : SettlesOn F (pi A B)) (ha : Infers G Δ a S) (hS : SettlesOn S A')
      (hA : SettlesOn A A') (hT : SettlesOn (B.inst a) T) : Infers G Δ (app f a) T

/-- A scope gives an expression at most one type. -/
theorem Infers.unique {G : List (String × Nameless)} {Δ : List Nameless} {e T U : Nameless}
    (hT : Infers G Δ e T) (hU : Infers G Δ e U) : T = U := by
  induction hT generalizing U with
  | sort =>
    cases hU
    rfl
  | bound hn hT =>
    cases hU with
    | bound hn' hU =>
      cases hn.symm.trans hn'
      exact hT.unique hU
  | declared hx hT =>
    cases hU with
    | declared hx' hU =>
      cases hx.symm.trans hx'
      exact hT.unique hU
  | form _ _ _ _ hS₂ _ _ ihB =>
    cases hU with
    | form _ _ _ hB' hS₂' _ =>
      cases ihB hB'
      exact hS₂.unique hS₂'
  | abst _ _ _ _ _ hT _ ihe =>
    cases hU with
    | abst _ _ _ he' _ hU =>
      cases ihe he'
      exact hT.unique hU
  | appl _ hF _ _ _ hT ihf _ =>
    cases hU with
    | appl hf' hF' _ _ _ hU =>
      cases ihf hf'
      cases hF.unique hF'
      exact hT.unique hU

/-- A type that was computed is left alone by passes. -/
theorem Infers.pass_eq {G : List (String × Nameless)} {Δ : List Nameless} {e T : Nameless}
    (h : Infers G Δ e T) : T.pass = T := by
  cases h with
  | sort => rfl
  | bound _ hT | declared _ hT | abst _ _ _ _ _ hT | appl _ _ _ _ _ hT => exact hT.pass_eq
  | form _ _ _ _ hS₂ _ => exact hS₂.pass_eq

/-- A coherent occurrence is given the type of the binder it points at. -/
theorem Tracks.infers_var {Γ₀ Γ : Ctx} {S : Scope} (h : Tracks Γ₀ S Γ) {r : Ref}
    (hr : (Expr.var r).Coherent S.binders)
    (hd : ∀ x ∈ (Expr.var r).freeNames, Γ₀.contains x = true) {D D' : Expr}
    (hD : Γ.get? r.name = some D) (hD' : typeAt r D = .ok D') {T : Nameless}
    (hT : SettlesOn D'.erase T) : Infers Γ₀.erase S.types (Expr.var r).erase T := by
  cases r with
  | free x =>
    cases hD'
    have hx : (Γ₀.get? x).isSome = true := hd x List.mem_cons_self
    obtain ⟨A, hA⟩ := Option.isSome_iff_exists.mp hx
    obtain ⟨D₁, hD₁, heq⟩ := h.declared x A hA
    cases hD.symm.trans hD₁
    refine .declared ?_ hT
    rw [Ctx.lookup_erase, hA, heq]
    rfl
  | bound i =>
    obtain ⟨d, x⟩ := i
    obtain ⟨hnn, hb⟩ := hr
    obtain ⟨n, rfl⟩ := Int.eq_ofNat_of_zero_le hnn
    simp only [Int.toNat_natCast, Scope.binders, List.getElem?_map, Option.map_eq_some_iff] at hb
    obtain ⟨⟨b, A⟩, hS, rfl⟩ := hb
    obtain ⟨D₁, hD₁, heq⟩ := h.bound n x A hS
    cases hD.symm.trans hD₁
    -- the entry may have been written by another binder of this name, which agrees
    have hcast : (n : Int) + 1 = ((n + 1 : Nat) : Int) := by omega
    rw [typeAt, hcast, Expr.shift_of_nonneg (Int.natCast_nonneg _) (Int.le_refl 0)] at hD'
    cases hD'
    rw [Expr.erase_shiftBy_zero, heq] at hT
    exact .bound (Scope.types_getElem? hS) hT

/-- A check against the sorts succeeds in the scope when the derivation of a type does. -/
theorem validate_sorts_infers {cap : Option Int} {fuel : Nat} {Γ Γ₀ : Ctx} {S : Scope} {A s : Expr}
    (h : (validate cap fuel Γ A sorts).Yields s)
    (ih : ∀ T, (derive cap fuel Γ A).Yields T → Infers Γ₀.erase S.types A.erase T.erase) :
    ∃ U, Infers Γ₀.erase S.types A.erase U ∧ SettlesOn U s.erase ∧ s.erase.IsSort := by
  obtain ⟨T, hT, hs, hsort⟩ := validate_sorts_yields h
  exact ⟨T.erase, ih T hT, hs, hsort⟩

/-- The check of a Π rests on a check of its domain, and its codomain is not `□`. -/
theorem validate_pi {cap : Option Int} {fuel : Nat} {Γ : Ctx} {b : Binder} {A B s : Expr}
    (h : (validate cap fuel Γ (.pi b A B) sorts).Yields s) :
    (∃ fuel' s', (validate cap fuel' Γ A sorts).Yields s') ∧ B ≠ .box := by
  obtain ⟨T, hT, _⟩ := validate_sorts_yields h
  obtain ⟨fuel, rfl⟩ := exists_fuel hT
  obtain ⟨s', Δ, hA, _, hB⟩ := derive_pi.mp hT
  refine ⟨⟨fuel, s', hA⟩, ?_⟩
  rintro rfl
  obtain ⟨U, hU, _⟩ := validate_sorts_yields hB
  exact not_derive_box hU

/-- **A derivation that ends has computed the type that its scope gives.** -/
theorem derive_infers {cap : Option Int} {fuel : Nat} {Γ₀ Γ : Ctx} {S : Scope} {e T : Expr}
    (hΓ : Tracks Γ₀ S Γ) (he : e.Coherent S.binders)
    (hd : ∀ x ∈ e.freeNames, Γ₀.contains x = true) (h : (derive cap fuel Γ e).Yields T) :
    Infers Γ₀.erase S.types e.erase T.erase := by
  -- by structure and not by fuel: the parts of `e` are typed in several of the runs below
  induction e generalizing fuel Γ S T with
  | var r =>
    obtain ⟨fuel, rfl⟩ := exists_fuel h
    obtain ⟨D, s, D', hD, _, hD', hT⟩ := derive_var.mp h
    exact hΓ.infers_var he hd hD hD' (normalize_yields hT)
  | lam b A body ihA ihe =>
    obtain ⟨fuel, rfl⟩ := exists_fuel h
    obtain ⟨Δ, B, s, hΔ, hB, hP, hT⟩ := derive_lam.mp h
    obtain ⟨⟨_, _, hA⟩, hbox⟩ := validate_pi hP
    obtain ⟨U, hU, hs, hsort⟩ := validate_sorts_infers hA
      fun _ => ihA hΓ he.1 fun x hx => hd x (List.mem_append_left _ hx)
    have hbody := ihe (hΓ.enter hΔ) he.2 (fun x hx => hd x (List.mem_append_right _ hx)) hB
    exact .abst hU hs hsort hbody (fun heq => hbox (Expr.erase_eq_leaf.2.1 heq))
      (normalize_yields hT)
  | pi b A B ihA ihB =>
    obtain ⟨fuel, rfl⟩ := exists_fuel h
    obtain ⟨s, Δ, hA, hΔ, hB⟩ := derive_pi.mp h
    obtain ⟨U, hU, hs, hsort⟩ := validate_sorts_infers hA
      fun _ => ihA hΓ he.1 fun x hx => hd x (List.mem_append_left _ hx)
    obtain ⟨V, hV, ht, htsort⟩ := validate_sorts_infers hB
      fun _ => ihB (hΓ.enter hΔ) he.2 fun x hx => hd x (List.mem_append_right _ hx)
    exact .form hU hs hsort hV ht htsort
  | app f a ihf iha =>
    obtain ⟨fuel, rfl⟩ := exists_fuel h
    obtain ⟨F, b, A, B, s, hF, hP, ha, hT⟩ := derive_app.mp h
    obtain ⟨U, hU, hs, A₁, hA₁, A', hA', heq⟩ := validate_yields ha
    rw [List.mem_singleton] at hA₁
    subst hA₁
    have hs' := normalize_yields hs
    rw [heq] at hs'
    have hT' := normalize_yields hT
    rw [Expr.erase_instantiate] at hT'
    exact .appl (ihf hΓ he.1 (fun x hx => hd x (List.mem_append_left _ hx)) hF)
      (normalize_yields hP)
      (iha hΓ he.2 (fun x hx => hd x (List.mem_append_right _ hx)) hU) hs'
      (normalize_yields hA') hT'
  | star =>
    obtain ⟨fuel, rfl⟩ := exists_fuel h
    rw [derive_star.mp h]
    exact .sort
  | box => exact (not_derive_box h).elim
  | unknown => exact (not_derive_unknown h).elim

/-- A derivation that ends has found every free occurrence that no binder shadows among the
    declarations. -/
theorem derive_declared {cap : Option Int} {fuel : Nat} {Γ₀ Γ : Ctx} {S : Scope} {e T : Expr}
    (hΓ : Tracks Γ₀ S Γ) (he : e.Unshadowed S.binders) (h : (derive cap fuel Γ e).Yields T) :
    ∀ x ∈ e.freeNames, Γ₀.contains x = true := by
  induction e generalizing fuel Γ S T with
  | var r =>
    obtain ⟨fuel, rfl⟩ := exists_fuel h
    obtain ⟨D, _, _, hD, _⟩ := derive_var.mp h
    cases r with
    | bound i => exact fun x hx => absurd hx List.not_mem_nil
    | free y =>
      intro x hx
      obtain rfl := List.mem_singleton.mp hx
      exact (hΓ.origin x D hD).resolve_right he
  | lam b A body ihA ihe =>
    obtain ⟨fuel, rfl⟩ := exists_fuel h
    obtain ⟨Δ, B, s, hΔ, hB, hP, _⟩ := derive_lam.mp h
    obtain ⟨⟨_, _, hA⟩, _⟩ := validate_pi hP
    obtain ⟨U, hU, _⟩ := validate_sorts_yields hA
    intro x hx
    rcases List.mem_append.mp hx with hx | hx
    · exact ihA hΓ he.1 hU x hx
    · exact ihe (hΓ.enter hΔ) he.2 hB x hx
  | pi b A B ihA ihB =>
    obtain ⟨fuel, rfl⟩ := exists_fuel h
    obtain ⟨s, Δ, hA, hΔ, hB⟩ := derive_pi.mp h
    obtain ⟨U, hU, _⟩ := validate_sorts_yields hA
    obtain ⟨V, hV, _⟩ := validate_sorts_yields hB
    intro x hx
    rcases List.mem_append.mp hx with hx | hx
    · exact ihA hΓ he.1 hU x hx
    · exact ihB (hΓ.enter hΔ) he.2 hV x hx
  | app f a ihf iha =>
    obtain ⟨fuel, rfl⟩ := exists_fuel h
    obtain ⟨F, b, A, B, s, hF, _, ha, _⟩ := derive_app.mp h
    obtain ⟨U, hU, _⟩ := validate_yields ha
    intro x hx
    rcases List.mem_append.mp hx with hx | hx
    · exact ihf hΓ he.1 hF x hx
    · exact iha hΓ he.2 hU x hx
  | star => exact fun x hx => absurd hx List.not_mem_nil
  | box => exact fun x hx => absurd hx List.not_mem_nil
  | unknown => exact fun x hx => absurd hx List.not_mem_nil

/-! ## 3. Displayed names -/

/-- **Displayed names do not decide a type**: derivations for closed coherent expressions that are
    equal up to displayed names end in types that are, although they ask for other names. -/
theorem derive_alphaEq {cap₁ cap₂ : Option Int} {fuel₁ fuel₂ : Nat} {Γ : Ctx} {e₁ e₂ T₁ T₂ : Expr}
    (hc₁ : e₁.Coherent []) (hc₂ : e₂.Coherent []) (heq : e₁.alphaEq e₂ = true)
    (hd : ∀ x ∈ e₁.freeNames, Γ.contains x = true) (h₁ : (derive cap₁ fuel₁ Γ e₁).Yields T₁)
    (h₂ : (derive cap₂ fuel₂ Γ e₂).Yields T₂) : T₁.alphaEq T₂ = true := by
  have herase : e₁.erase = e₂.erase := Expr.alphaEq_iff.mp heq
  have hd₂ : ∀ x ∈ e₂.freeNames, Γ.contains x = true := by
    rwa [← Expr.names_erase, ← herase, Expr.names_erase]
  have hT₁ := derive_infers (.start Γ) hc₁ hd h₁
  have hT₂ := derive_infers (.start Γ) hc₂ hd₂ h₂
  rw [← herase] at hT₂
  exact Expr.alphaEq_iff.mpr (hT₁.unique hT₂)

/-- The declarations `N : *` and `n : N`. -/
def Ctx.point : Ctx := ⟨[("N", .star), ("n", .var (.free "N"))]⟩

/-- `λa:* . λb:a . λc:* . λd:c . (λe:N . b) n` with displayed names of one's choice. -/
def Expr.outerOf (a b c d e : String) : Expr :=
  .lam (.named a) .star (.lam (.named b) (.var (.bound ⟨0, a⟩))
    (.lam (.named c) .star (.lam (.named d) (.var (.bound ⟨0, c⟩))
      (.app (.lam (.named e) (.var (.free "N")) (.var (.bound ⟨3, b⟩))) (.var (.free "n"))))))

/-- The type of `outerOf`, `Πa:* . Πb:a . Πc:* . Πd:c . a`. -/
def Expr.outerTypeOf (a b c d : String) : Expr :=
  .pi (.named a) .star (.pi (.named b) (.var (.bound ⟨0, a⟩))
    (.pi (.named c) .star (.pi (.named d) (.var (.bound ⟨0, c⟩)) (.var (.bound ⟨3, a⟩)))))

/-- Two pairs of binders share their entries in one derivation and have their own in the other. -/
theorem derive_alphaEq_outerOf :
    (derive (some 9) 12 .point (.outerOf "A" "x" "A" "x" "y")).Yields (.outerTypeOf "A" "x" "A" "x")
      ∧ (derive (some 9) 12 .point (.outerOf "B" "f" "C" "g" "A")).Yields
          (.outerTypeOf "B" "f" "C" "g")
      ∧ (Expr.outerTypeOf "A" "x" "A" "x").alphaEq (.outerTypeOf "B" "f" "C" "g") = true := by
  have h₁ : (derive (some 9) 12 .point (.outerOf "A" "x" "A" "x" "y")).Yields
      (.outerTypeOf "A" "x" "A" "x") := ⟨_, rfl⟩
  have h₂ : (derive (some 9) 12 .point (.outerOf "B" "f" "C" "g" "A")).Yields
      (.outerTypeOf "B" "f" "C" "g") := ⟨_, rfl⟩
  exact ⟨h₁, h₂, derive_alphaEq (by decide) (by decide) (by decide) (by decide) h₁ h₂⟩

end Constructions
