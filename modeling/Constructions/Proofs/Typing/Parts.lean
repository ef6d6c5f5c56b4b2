import Constructions.Proofs.Nameless.Leaves
import Constructions.Proofs.Typing.Scope

/-!
# The parts of a typed expression

A derivation that ends has derived a type for every part of the expression: bodies, operands, and
annotations, although a λ has its own annotation checked only through the Π that is its type.

* `derive_part` -- **a part of a typed expression is typed**, in some context.
* `derive_sorts` -- so no part is `□`; and `□` itself is the type of the telescopes that end in `*`,
  and of nothing else, and no part of any other type.
* `not_derive_self_application` -- and no part is an expression applied to itself, because a Π is
  never its own domain.
-/

namespace Constructions

open Run Nameless

/-! ## 1. Parts -/

/-- **A derivation that ends has typed every part.** -/
theorem derive_part {cap : Option Int} {fuel : Nat} {Γ : Ctx} {e T p : Expr}
    (h : (derive cap fuel Γ e).Yields T) (hp : p ∈ e.parts) :
    ∃ fuel' Δ U, (derive cap fuel' Δ p).Yields U := by
  induction e generalizing fuel Γ T with
  | lam b A body ihA ihe =>
    rcases Expr.mem_parts_node.mp hp with rfl | hp | hp
    · exact ⟨fuel, Γ, T, h⟩
    all_goals
      obtain ⟨fuel, rfl⟩ := exists_fuel h
      obtain ⟨Δ, B, s, _, hB, hP, _⟩ := derive_lam.mp h
    · -- the annotation is a part of the Π that was checked
      obtain ⟨⟨_, _, hA⟩, _⟩ := validate_pi hP
      obtain ⟨U, hU, _⟩ := validate_yields hA
      exact ihA hU hp
    · exact ihe hB hp
  | pi b A B ihA ihB =>
    rcases Expr.mem_parts_node.mp hp with rfl | hp | hp
    · exact ⟨fuel, Γ, T, h⟩
    all_goals
      obtain ⟨fuel, rfl⟩ := exists_fuel h
      obtain ⟨s, Δ, hA, _, hB⟩ := derive_pi.mp h
    · obtain ⟨U, hU, _⟩ := validate_yields hA
      exact ihA hU hp
    · obtain ⟨U, hU, _⟩ := validate_yields hB
      exact ihB hU hp
  | app f a ihf iha =>
    rcases Expr.mem_parts_node.mp hp with rfl | hp | hp
    · exact ⟨fuel, Γ, T, h⟩
    all_goals
      obtain ⟨fuel, rfl⟩ := exists_fuel h
      obtain ⟨F, b, A, B, s, hF, _, ha, _⟩ := derive_app.mp h
    · exact ihf hF hp
    · obtain ⟨U, hU, _⟩ := validate_yields ha
      exact iha hU hp
  | _ =>
    obtain rfl := List.mem_singleton.mp hp
    exact ⟨fuel, Γ, T, h⟩

/-! ## 2. Sorts -/

theorem box_not_mem_normalize {cap : Option Int} {fuel : Nat} {e r : Expr}
    (h : (normalize cap fuel e).Yields r) (he : .box ∉ e.parts) : .box ∉ r.parts := by
  rw [Expr.not_mem_parts_iff_every (c := .box) trivial] at he ⊢
  exact he.steps (normalize_yields h).steps

theorem box_not_mem_instantiate {e a : Expr} (he : .box ∉ e.parts) (ha : .box ∉ a.parts) :
    .box ∉ (e.instantiate a).parts := by
  rw [Expr.not_mem_parts_iff_every (c := .box) trivial] at he ha ⊢
  rw [Expr.erase_instantiate]
  exact he.inst ha

/-- A Π, or several, that end in `*`; or `*` itself. -/
def Expr.isTelescope : Expr → Bool
  | star => true
  | pi _ _ B => B.isTelescope
  | _ => false

/-- No part of a typed expression is `□`, which has no type. -/
theorem derive_box_not_mem {cap : Option Int} {fuel : Nat} {Γ : Ctx} {e T : Expr}
    (h : (derive cap fuel Γ e).Yields T) : .box ∉ e.parts := by
  intro hbox
  obtain ⟨_, _, _, hU⟩ := derive_part h hbox
  exact not_derive_box hU

theorem eq_box_of_normalize {cap : Option Int} {fuel : Nat} {r : Expr}
    (h : (normalize cap fuel .box).Yields r) : r = .box :=
  Expr.erase_eq_leaf.2.1 (erase_eq_of_normalize h rfl)

/-- Telescopes have the type `□`, and any other expression has a type without it. -/
theorem derive_telescope {cap : Option Int} {fuel : Nat} {Γ : Ctx} {e T : Expr}
    (h : (derive cap fuel Γ e).Yields T) :
    e.isTelescope = true ∧ T = .box ∨ e.isTelescope = false ∧ .box ∉ T.parts := by
  induction e generalizing fuel Γ T with
  | var r =>
    obtain ⟨fuel, rfl⟩ := exists_fuel h
    obtain ⟨D, s, D', _, hs, hD', hT⟩ := derive_var.mp h
    obtain ⟨S, hS, _⟩ := validate_yields hs
    obtain ⟨k, rfl⟩ := typeAt_eq_ok hD'
    have hD : .box ∉ (D.shiftBy k 0).parts := fun hbox =>
      derive_box_not_mem hS (Expr.mem_parts_of_shiftBy (c := .box) trivial hbox)
    exact .inr ⟨rfl, box_not_mem_normalize hT hD⟩
  | lam b A body _ _ =>
    obtain ⟨fuel, rfl⟩ := exists_fuel h
    obtain ⟨Δ, B, s, _, _, hP, hT⟩ := derive_lam.mp h
    obtain ⟨S, hS, _⟩ := validate_yields hP
    exact .inr ⟨rfl, box_not_mem_normalize hT (derive_box_not_mem hS)⟩
  | pi b A B _ ihB =>
    obtain ⟨fuel, rfl⟩ := exists_fuel h
    obtain ⟨s, Δ, _, _, hB⟩ := derive_pi.mp h
    obtain ⟨S, hS, hT, _⟩ := validate_yields hB
    rcases ihB hS with ⟨htel, rfl⟩ | ⟨htel, hbox⟩
    · exact .inl ⟨htel, eq_box_of_normalize hT⟩
    · exact .inr ⟨htel, box_not_mem_normalize hT hbox⟩
  | app f a ihf _ =>
    obtain ⟨fuel, rfl⟩ := exists_fuel h
    obtain ⟨F, b, A, B, s, hF, hP, hs, hT⟩ := derive_app.mp h
    obtain ⟨U, hU, _⟩ := validate_yields hs
    rcases ihf hF with ⟨_, rfl⟩ | ⟨_, hbox⟩
    · cases eq_box_of_normalize hP
    · have hpi : .box ∉ (Expr.pi b A B).parts := box_not_mem_normalize hP hbox
      have hB : .box ∉ B.parts := fun hB => hpi (Expr.mem_parts_node.mpr (.inr (.inr hB)))
      have ha : .box ∉ a.parts := derive_box_not_mem hU
      exact .inr ⟨rfl, box_not_mem_normalize hT (box_not_mem_instantiate hB ha)⟩
  | star =>
    obtain ⟨fuel, rfl⟩ := exists_fuel h
    exact .inl ⟨rfl, derive_star.mp h⟩
  | box => exact (not_derive_box h).elim
  | unknown => exact (not_derive_unknown h).elim

/-- **The place of `□`.**  It is no part of a typed expression; a type is `□` itself or has it
    nowhere; and it is `□` exactly for the telescopes of Π that end in `*`. -/
theorem derive_sorts {cap : Option Int} {fuel : Nat} {Γ : Ctx} {e T : Expr}
    (h : (derive cap fuel Γ e).Yields T) :
    .box ∉ e.parts ∧ (T = .box ∨ .box ∉ T.parts) ∧ (T = .box ↔ e.isTelescope = true) := by
  refine ⟨derive_box_not_mem h, ?_⟩
  rcases derive_telescope h with ⟨htel, hT⟩ | ⟨htel, hbox⟩
  · exact ⟨.inl hT, iff_of_true hT htel⟩
  · have hne : T ≠ .box := by
      rintro rfl
      exact hbox (List.mem_singleton_self Expr.box)
    exact ⟨.inr hbox, iff_of_false hne (by rw [htel]; exact Bool.false_ne_true)⟩

/-- `ΠA:* . Πx:A . *` is a telescope and has the type `□`.  The polymorphic identity and its type,
    which ends in a variable, are no telescopes. -/
theorem derive_sorts_identity :
    let A : Expr := .var (.free "A")
    let kind : Expr := .all (.named "A") .star (.all (.named "x") A .star)
    let type : Expr := .all (.named "A") .star (.all (.named "x") A A)
    let id : Expr := .abs (.named "A") .star (.abs (.named "x") A (.var (.free "x")))
    ((derive (some 9) 9 .empty kind).Yields .box ∧ kind.isTelescope = true)
      ∧ ((derive (some 9) 9 .empty type).Yields .star ∧ type.isTelescope = false)
      ∧ (derive (some 9) 9 .empty id).Yields type ∧ .box ∉ id.parts ∧ .box ∉ type.parts := by
  intro A kind type id
  have hkind : (derive (some 9) 9 .empty kind).Yields .box := ⟨_, rfl⟩
  have htype : (derive (some 9) 9 .empty type).Yields .star := ⟨_, rfl⟩
  have hid : (derive (some 9) 9 .empty id).Yields type := ⟨_, rfl⟩
  have hnone : type.isTelescope = false := by
    rw [Bool.eq_false_iff]
    intro htel
    cases (derive_sorts htype).2.2.mpr htel
  obtain ⟨hparts, hT, _⟩ := derive_sorts hid
  exact ⟨⟨hkind, (derive_sorts hkind).2.2.mp rfl⟩, ⟨htype, hnone⟩, hid, hparts,
    hT.resolve_left Expr.noConfusion⟩

/-! ## 3. Self-application -/

/-- A Π is not its own domain. -/
theorem Nameless.pi_ne_domain (A B : Nameless) : pi A B ≠ A := by
  intro h
  have hsize := congrArg size h
  rw [size] at hsize
  omega

/-- An expression applied to itself has no type: its type would be a Π that settles on its own
    domain. -/
theorem not_derive_app_self {cap : Option Int} {fuel : Nat} {Γ : Ctx} {f T : Expr} :
    ¬ (derive cap fuel Γ (.app f f)).Yields T := by
  intro h
  obtain ⟨fuel, rfl⟩ := exists_fuel h
  obtain ⟨F, b, A, B, s, hF, hP, hs, _⟩ := derive_app.mp h
  obtain ⟨F', hF', hs', A₁, hA₁, A', hA', heq⟩ := validate_yields hs
  -- both operands are typed by one run, and their types normalised by one run
  obtain rfl := hF.unique hF'
  obtain rfl := hP.unique hs'
  rw [List.mem_singleton.mp hA₁] at hA'
  have hpass : (Expr.pi b A B).erase.pass = (Expr.pi b A B).erase := (normalize_yields hP).pass_eq
  have hdomain : A.erase.pass = A.erase := by
    injection hpass
  exact pi_ne_domain A.erase B.erase (heq.trans (erase_eq_of_normalize hA' hdomain))

/-- **Self-application has no type**, wherever it stands in an expression. -/
theorem not_derive_self_application {f e : Expr} (h : .app f f ∈ e.parts) (cap : Option Int)
    (fuel : Nat) (Γ : Ctx) (T : Expr) : ¬ (derive cap fuel Γ e).Yields T := by
  intro hT
  obtain ⟨_, _, _, hU⟩ := derive_part hT h
  exact not_derive_app_self hU

/-- `λg:* . λy : g ((λz:* . z) (λz:* . z)) . y`, where the self-application is an operand inside an
    annotation. -/
theorem not_derive_self_application_annotation :
    let f : Expr := .abs (.named "z") .star (.var (.free "z"))
    let e : Expr := .abs (.named "g") .star
      (.abs (.named "y") (.app (.var (.free "g")) (.app f f)) (.var (.free "y")))
    .app f f ∈ e.parts ∧ ∀ cap fuel Γ T, ¬ (derive cap fuel Γ e).Yields T := by
  intro f e
  have h : .app f f ∈ e.parts := by decide
  exact ⟨h, not_derive_self_application h⟩

end Constructions
