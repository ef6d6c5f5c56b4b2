import Constructions.Proofs.Typing.Model
import Constructions.Proofs.Typing.Soundness

/-!
# Types and reduction

An expression and what it reduces to have the same type in the calculus.  The derivation, whose
context is keyed by name, need not find it: reduction moves arguments below binders, and so brings
binders of one name inside each other.  If their types differ, the context refuses the second; and
so it does where only the types that are computed on the way have such binders.  If their types are
equal as trees, the second declaration takes the place of the first, although its indices point at
other binders; a name that it speaks of may then be unknown where it is looked up, or be declared
with a type that does not fit.

* `derive_reduce` -- **when an expression has a type, what it reduces to has this type in the
  calculus, and no derivation ends in another.**
* `reduce_redeclares` -- there is a built expression with a type whose reduct has no derivation.

Contexts may be circular here: that each declared name can be typed alone says less than that the
declarations are valid in some order.
-/

namespace Constructions

open Run Nameless

/-- Every declared type is built. -/
def Ctx.IsBuilt (Γ : Ctx) : Prop := ∀ x D, Γ.get? x = some D → D.Built

/-- Every declared name can be typed. -/
def Ctx.IsTyped (Γ : Ctx) : Prop :=
  ∀ x, Γ.contains x = true → ∃ cap fuel T, (derive cap fuel Γ (.var (.free x))).Yields T

theorem Ctx.IsBuilt.without {Γ : Ctx} (h : Γ.IsBuilt) (x : String) : (Γ.without x).IsBuilt := by
  intro y D hy
  exact h y D (Ctx.get?_of_without hy)

theorem Ctx.IsBuilt.grounded {Γ : Ctx} (h : Γ.IsBuilt) : Grounded False Γ.erase := by
  intro x A hx
  rw [Ctx.lookup_erase, Option.map_eq_some_iff] at hx
  obtain ⟨D, hD, rfl⟩ := hx
  exact ⟨(h x D hD).coherent.below, .unchecked _⟩

theorem Ctx.lookup_without {Γ : Ctx} {x y : String} {A : Nameless}
    (h : (Γ.without x).erase.lookup y = some A) : Γ.erase.lookup y = some A := by
  rw [Ctx.lookup_erase, Option.map_eq_some_iff] at h ⊢
  obtain ⟨D, hD, rfl⟩ := h
  exact ⟨D, Ctx.get?_of_without hD, rfl⟩

/-- A derivation for a coherent expression gives a type of the calculus without checks. -/
theorem Ctx.IsBuilt.hasType {Γ : Ctx} (hΓ : Γ.IsBuilt) {cap : Option Int} {fuel : Nat} {e T : Expr}
    (hc : e.Coherent []) (hd : ∀ x ∈ e.freeNames, Γ.contains x = true)
    (h : (derive cap fuel Γ e).Yields T) : HasType False Γ.erase [] e.erase T.erase :=
  (derive_infers (.start Γ) hc hd h).hasType hΓ.grounded Stacked.nil

/-- The declared types of names that can be typed are types. -/
theorem Ctx.IsTyped.typedDecls {Γ : Ctx} (hΓ : Γ.IsBuilt) (h : Γ.IsTyped) : TypedDecls Γ.erase := by
  intro x A hx
  rw [Ctx.lookup_erase, Option.map_eq_some_iff] at hx
  obtain ⟨D, hD, rfl⟩ := hx
  have hcontains : Γ.contains x = true := by rw [Ctx.contains, hD, Option.isSome_some]
  obtain ⟨cap, fuel, T, hT⟩ := h x hcontains
  obtain ⟨fuel, rfl⟩ := exists_fuel hT
  obtain ⟨D', s, _, hD', hs, _, _⟩ := derive_var.mp hT
  cases hD.symm.trans hD'
  obtain ⟨S, hS, hsettle, hsort⟩ := validate_sorts_yields hs
  -- the check ran without the name, and what it found is kept when the name comes back
  have hbuilt := hΓ x D hD
  have hnames := derive_declared (.start _) hbuilt.unshadowed hS
  have hDS := ((hΓ.without x).hasType hbuilt.coherent hnames hS).type_steps hsettle.steps
  exact ⟨s.erase, hsort, hDS.declare fun y B => Ctx.lookup_without⟩

/-- **Reduction keeps the type of a built expression**, in the calculus and in every derivation
    that ends with a type.  A derivation may also end in a fault: a redeclaration, an unknown
    variable or a type that is not the one expected. -/
theorem derive_reduce {cap : Option Int} {limit : Int} {fuel fuel' : Nat} {Γ : Ctx} {e r A : Expr}
    (hΓ : Γ.IsBuilt) (hdecl : Γ.IsTyped) (he : e.Built) (hA : (derive cap fuel Γ e).Yields A)
    (hr : (reduce limit fuel' e).Yields r) :
    HasType False Γ.erase [] r.erase A.erase
      ∧ ∀ cap' fuel'' A', (derive cap' fuel'' Γ r).Yields A' → A'.alphaEq A = true := by
  have hG : TypedDecls Γ.erase := hdecl.typedDecls hΓ
  have hsteps : Steps e.erase r.erase := (reduce_yields hr).steps
  have hd := derive_declared (.start Γ) he.unshadowed hA
  have hinfers := derive_infers (.start Γ) he.coherent hd hA
  have hrA : HasType False Γ.erase [] r.erase A.erase :=
    (hinfers.hasType hΓ.grounded Stacked.nil).steps hsteps
  refine ⟨hrA, fun cap' fuel'' A' hA' => ?_⟩
  have hcr : r.Coherent [] := by
    obtain ⟨n, rfl, _⟩ := reduce_iterates hr
    exact he.coherent.iterate_pass (n + 1)
  have hdr : ∀ x ∈ r.freeNames, Γ.contains x = true := by
    intro x hx
    rw [← Expr.names_erase] at hx
    have hx' := mem_names_of_steps hsteps hx
    rw [Expr.names_erase] at hx'
    exact hd x hx'
  have hinfers' := derive_infers (.start Γ) hcr hdr hA'
  have hrA' := hinfers'.hasType hΓ.grounded Stacked.nil
  have hn := hrA.normal_type hG Stacked.nil hinfers.pass_eq
  have hn' := hrA'.normal_type hG Stacked.nil hinfers'.pass_eq
  exact Expr.alphaEq_iff.mpr ((hrA'.unique hrA).eq_of_normal hn' hn)

/-- The declarations `A : *` and `B : *`. -/
def Ctx.bases : Ctx := ⟨[("A", .star), ("B", .star)]⟩

theorem Ctx.bases_get? {x : String} {D : Expr} (h : Ctx.bases.get? x = some D) :
    (x = "A" ∨ x = "B") ∧ D = .star := by
  simp only [Ctx.bases, Ctx.get?, List.lookup_cons, List.lookup_nil] at h
  split at h
  · rename_i hx
    exact ⟨.inl (beq_iff_eq.mp hx), (Option.some.inj h).symm⟩
  · split at h
    · rename_i hx
      exact ⟨.inr (beq_iff_eq.mp hx), (Option.some.inj h).symm⟩
    · cases h

theorem Ctx.bases_isBuilt : Ctx.bases.IsBuilt := by
  intro x D h
  rw [(Ctx.bases_get? h).2]
  exact .star

theorem Ctx.bases_isTyped : Ctx.bases.IsTyped := by
  intro x h
  obtain ⟨D, hD⟩ := Option.isSome_iff_exists.mp h
  rcases (Ctx.bases_get? hD).1 with rfl | rfl
  · exact ⟨some 1, 2, .star, _, rfl⟩
  · exact ⟨some 1, 2, .star, _, rfl⟩

/-- `(λf : T → T . λx : A . e) (λy : T . y)`. -/
def Expr.onIdentity (T e : Expr) (y : String) : Expr :=
  .app (.abs (.named "f") (.arrow T T) (.abs (.named "x") (.var (.free "A")) e))
    (.abs (.named y) T (.var (.free y)))

theorem Expr.Built.onIdentity {T e : Expr} (hT : T.Built) (he : e.Built) (y : String) :
    (Expr.onIdentity T e y).Built :=
  .app (.abs "f" (.arrow hT hT) (.abs "x" (.name "A") he)) (.abs y hT (.name y))

/-- `(λf : A → A . λx : A . f (f x)) (λy : A . y)` reduces to `λx : A . x`. -/
theorem derive_reduce_twice :
    let a : Expr := .var (.free "A")
    let f : Expr := .var (.free "f")
    let e := Expr.onIdentity a (.app f (.app f (.var (.free "x")))) "y"
    let r : Expr := .lam (.named "x") a (.var (.bound ⟨0, "x"⟩))
    let T : Expr := .pi (.named "x") a a
    (derive (some 9) 9 .bases e).Yields T ∧ (reduce 9 9 e).Yields r
      ∧ HasType False Ctx.bases.erase [] r.erase T.erase
      ∧ ∃ T', (derive (some 9) 9 .bases r).Yields T' ∧ T'.alphaEq T = true := by
  intro a f e r T
  have he : e.Built := .onIdentity (.name "A") (.app (.name "f") (.app (.name "f") (.name "x"))) "y"
  have hT : (derive (some 9) 9 .bases e).Yields T := ⟨_, rfl⟩
  have hr : (reduce 9 9 e).Yields r := ⟨_, rfl⟩
  have hrT : (derive (some 9) 9 .bases r).Yields T := ⟨_, rfl⟩
  obtain ⟨htype, hsame⟩ := derive_reduce Ctx.bases_isBuilt Ctx.bases_isTyped he hT hr
  exact ⟨hT, hr, htype, T, hrT, hsame _ _ _ hrT⟩

/-- **Reduction can leave no derivation**: `(λf : B → B . λx : A . f) (λx : B . x)` has the type
    `A → B → B` and reduces to `λx : A . λx : B . x`, where `x` is declared twice. -/
theorem reduce_redeclares :
    let a : Expr := .var (.free "A")
    let b : Expr := .var (.free "B")
    let e := Expr.onIdentity b (.var (.free "f")) "x"
    let r : Expr := .lam (.named "x") a (.lam (.named "x") b (.var (.bound ⟨0, "x"⟩)))
    Ctx.bases.IsBuilt ∧ Ctx.bases.IsTyped ∧ e.Built
      ∧ (derive (some 9) 9 .bases e).Yields (.pi (.named "x") a (.pi .anonymous b b))
      ∧ (reduce 9 9 e).Yields r
      ∧ (∃ events, derive (some 9) 9 .bases r
          = .done events (.error (.typing (.redeclaration "x" ⟨a, rfl⟩ ⟨b, rfl⟩))))
      ∧ ∀ cap fuel T, ¬ (derive cap fuel .bases r).Yields T := by
  intro a b e r
  refine ⟨Ctx.bases_isBuilt, Ctx.bases_isTyped, .onIdentity (.name "B") (.name "f") "x",
    ⟨_, rfl⟩, ⟨_, rfl⟩, ⟨_, rfl⟩, fun cap fuel T hT => ?_⟩
  obtain ⟨fuel, rfl⟩ := exists_fuel hT
  obtain ⟨Δ, B, _, hΔ, hB, _⟩ := derive_lam.mp hT
  obtain ⟨fuel, rfl⟩ := exists_fuel hB
  obtain ⟨Δ', _, _, hΔ', _⟩ := derive_lam.mp hB
  cases hΔ
  cases hΔ'

end Constructions
