import Constructions.Proofs.Typing.Preservation
import Constructions.Proofs.Typing.Scope

/-!
# Derived types are types of the calculus

* `Infers.hasType` -- a type that is computed in a scope belongs to the tree by the rules of the
  calculus, with or without their checks.
* `derive_sound` -- **under valid declarations a derivation that ends has found a type of the
  calculus**, where binders are known by position and not by name.
-/

namespace Constructions

open Run Nameless

/-- The declarations are closed, and each is a type by the others as far as that is checked. -/
def Grounded (checked : Prop) (G : List (String × Nameless)) : Prop :=
  ∀ x A, G.lookup x = some A → A.Below 0 ∧ Declarable checked (Assoc.erase x G) [] A

section

variable {checked : Prop} {G : List (String × Nameless)} {Δ : List Nameless}

/-- A Π is a type when its domain is one and its codomain is the type of something and not `□`. -/
theorem HasType.pi_declarable {A e B s : Nameless} (hs : s.IsSort) (hA : HasType checked G Δ A s)
    (he : HasType checked G (A :: Δ) e B) (hB : B ≠ box) : Declarable checked G Δ (pi A B) := by
  refine .of_checked fun hch => ?_
  rcases he.type_correct hch with hbox | ⟨t, ht, hBt⟩
  · exact absurd hbox hB
  · exact ⟨t, ht, .form hs ht hA hBt⟩

/-- **A type that is computed in a scope belongs to the tree by the rules.** -/
theorem Infers.hasType (hG : Grounded checked G) {e T : Nameless} (h : Infers G Δ e T)
    (hΔ : Stacked (Declarable checked G) Δ) : HasType checked G Δ e T := by
  induction h with
  | sort => exact .sort
  | bound hn hT => exact ((hΔ _ _ hn).bound hn).type_steps hT.steps
  | declared hx hT =>
    obtain ⟨hc, s, hs, hA⟩ := hG _ _ hx
    exact (HasType.declared hx hc hs hA).type_steps hT.steps
  | form _ hS₁ h₁ _ hS₂ h₂ ihA ihB =>
    have hA := (ihA hΔ).type_steps hS₁.steps
    have hB := (ihB (hΔ.cons (hA.declarable h₁))).type_steps hS₂.steps
    exact .form h₁ h₂ hA hB
  | abst _ hS₁ h₁ _ hbox hT ihA ihe =>
    have hA := (ihA hΔ).type_steps hS₁.steps
    have he := ihe (hΔ.cons (hA.declarable h₁))
    obtain ⟨s, hs, hP⟩ := HasType.pi_declarable h₁ hA he hbox
    exact (HasType.abst h₁ hs hA he hP).type_steps hT.steps
  | appl _ hF _ hS hA hT ihf iha =>
    have hf := (ihf hΔ).type_steps hF.steps
    have ha := (iha hΔ).type_steps hS.steps
    -- the argument is brought back from what its type and the domain both settle on
    have hdom := hf.domain_declarable
    exact (HasType.appl hf (ha.convert hA.steps.conv.symm hdom)).type_steps hT.steps

end

theorem Valid.grounded {G : List (String × Nameless)} (h : Valid G) : Grounded True G := by
  intro x A hx
  obtain ⟨hc, s, hs, hA⟩ := h.declaration hx
  exact ⟨hc, hA.declarable hs⟩

/-- **A derivation that ends has found a type of the calculus.** -/
theorem derive_sound {cap : Option Int} {fuel : Nat} {Γ : Ctx} {e T : Expr} (hΓ : Valid Γ.erase)
    (hc : e.Coherent []) (hd : ∀ x ∈ e.freeNames, Γ.contains x = true)
    (h : (derive cap fuel Γ e).Yields T) : HasType True Γ.erase [] e.erase T.erase :=
  (derive_infers (.start Γ) hc hd h).hasType hΓ.grounded .nil

theorem valid_point : Valid Ctx.point.erase := by
  have hN : Valid [("N", star)] := .snoc (A := star) .nil rfl trivial isSort_box .sort
  have hc : HasType True [("N", star)] [] (const "N") star :=
    .declared (A := star) rfl trivial isSort_box fun _ => .sort
  exact .snoc (A := const "N") hN rfl trivial isSort_star hc

/-- The inner `A` and `x` take over the entries of the outer ones, and the occurrence still gets the
    type of the outer `x`. -/
theorem derive_sound_outerOf :
    (derive (some 9) 12 .point (.outerOf "A" "x" "A" "x" "y")).Yields (.outerTypeOf "A" "x" "A" "x")
      ∧ HasType True Ctx.point.erase [] (Expr.outerOf "A" "x" "A" "x" "y").erase
          (Expr.outerTypeOf "A" "x" "A" "x").erase := by
  have h : (derive (some 9) 12 .point (.outerOf "A" "x" "A" "x" "y")).Yields
      (.outerTypeOf "A" "x" "A" "x") := ⟨_, rfl⟩
  exact ⟨h, derive_sound valid_point (by decide) (by decide) h⟩

end Constructions
