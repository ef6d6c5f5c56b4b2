import Constructions.Proofs.Typing.Yields

/-!
# Conversion by normal forms

Two expressions are convertible when contractions of redexes, forwards and backwards and up to
displayed names, lead from one to the other.

* `Expr.Contracts`, `Expr.Convertible` -- one contraction, and the equivalence it generates.
* `Expr.hasRedex` -- whether anything is left to contract.
* `convertible_iff` -- names play no part: it is conversion of what remains without them.
* `reduce_decides_conversion` -- comparing what two expressions settle on decides whether they are
  convertible, as far as they settle on normal forms.
-/

namespace Constructions

open Run Relation

namespace Expr

/-! ## 1. Contractions -/

/-- One redex is contracted, anywhere in an expression. -/
inductive Contracts : Expr → Expr → Prop
  | beta (b : Binder) (A : Expr) {e a r : Expr} (h : e.subst 0 a = .ok r) :
      Contracts (app (lam b A e) a) r
  | lamType (b : Binder) {A A' : Expr} (e : Expr) (h : Contracts A A') :
      Contracts (lam b A e) (lam b A' e)
  | lamBody (b : Binder) (A : Expr) {e e' : Expr} (h : Contracts e e') :
      Contracts (lam b A e) (lam b A e')
  | piType (b : Binder) {A A' : Expr} (B : Expr) (h : Contracts A A') :
      Contracts (pi b A B) (pi b A' B)
  | piBody (b : Binder) (A : Expr) {B B' : Expr} (h : Contracts B B') :
      Contracts (pi b A B) (pi b A B')
  | appFun {f f' : Expr} (a : Expr) (h : Contracts f f') : Contracts (app f a) (app f' a)
  | appArg (f : Expr) {a a' : Expr} (h : Contracts a a') : Contracts (app f a) (app f a')

/-- Contractions and changes of displayed names lead from one expression to the other, in either
    direction. -/
def Convertible : Expr → Expr → Prop := EqvGen fun e f => Contracts e f ∨ e.alphaEq f = true

/-- Whether an expression has a λ that is applied. -/
def hasRedex : Expr → Bool
  | lam _ A e => A.hasRedex || e.hasRedex
  | pi _ A B => A.hasRedex || B.hasRedex
  | app (lam ..) _ => true
  | app f a => f.hasRedex || a.hasRedex
  | _ => false

theorem contracts_instantiate (b : Binder) (A e a : Expr) :
    Contracts (app (lam b A e) a) (e.instantiate a) :=
  .beta b A (subst_of_nonneg (Int.le_refl 0) e a)

/-! ## 2. Contractions without names -/

theorem Contracts.step {e f : Expr} (h : Contracts e f) : Nameless.Step e.erase f.erase := by
  induction h with
  | @beta b A e a r h =>
    rw [subst_of_nonneg (Int.le_refl 0)] at h
    cases h
    rw [show substAt a 0 0 e = e.instantiate a from rfl, erase_instantiate]
    exact .beta A.erase e.erase a.erase
  | lamType b e _ ih => exact .lamType e.erase ih
  | lamBody b A _ ih => exact .lamBody A.erase ih
  | piType b B _ ih => exact .piType B.erase ih
  | piBody b A _ ih => exact .piBody A.erase ih
  | appFun a _ ih => exact .appFun a.erase ih
  | appArg f _ ih => exact .appArg f.erase ih

/-- Every contraction of the tree without names is one of the expression. -/
theorem contracts_of_step {e' g : Nameless} (h : Nameless.Step e' g) {e : Expr}
    (he : e.erase = e') : ∃ f, Contracts e f ∧ f.erase = g := by
  induction h generalizing e with
  | beta A' e' a' =>
    obtain ⟨f, a, rfl, hf, rfl⟩ := erase_eq_app he
    obtain ⟨b, A, e, rfl, rfl, rfl⟩ := erase_eq_lam hf
    exact ⟨_, contracts_instantiate b A e a, erase_instantiate e a⟩
  | lamType e' _ ih =>
    obtain ⟨b, A, e, rfl, hA, rfl⟩ := erase_eq_lam he
    obtain ⟨A', hc, rfl⟩ := ih hA
    exact ⟨_, .lamType b e hc, rfl⟩
  | lamBody A' _ ih =>
    obtain ⟨b, A, f, rfl, rfl, hf⟩ := erase_eq_lam he
    obtain ⟨f', hc, rfl⟩ := ih hf
    exact ⟨_, .lamBody b A hc, rfl⟩
  | piType B' _ ih =>
    obtain ⟨b, A, B, rfl, hA, rfl⟩ := erase_eq_pi he
    obtain ⟨A', hc, rfl⟩ := ih hA
    exact ⟨_, .piType b B hc, rfl⟩
  | piBody A' _ ih =>
    obtain ⟨b, A, B, rfl, rfl, hB⟩ := erase_eq_pi he
    obtain ⟨B', hc, rfl⟩ := ih hB
    exact ⟨_, .piBody b A hc, rfl⟩
  | appFun a' _ ih =>
    obtain ⟨f, a, rfl, hf, rfl⟩ := erase_eq_app he
    obtain ⟨f', hc, rfl⟩ := ih hf
    exact ⟨_, .appFun a hc, rfl⟩
  | appArg f' _ ih =>
    obtain ⟨f, a, rfl, rfl, ha⟩ := erase_eq_app he
    obtain ⟨a', hc, rfl⟩ := ih ha
    exact ⟨_, .appArg f hc, rfl⟩

theorem convertible_of_steps {e : Expr} {g : Nameless} (h : e.erase.Steps g) :
    ∃ f, Convertible e f ∧ f.erase = g := by
  induction h with
  | refl => exact ⟨e, .refl e, rfl⟩
  | tail _ hs ih =>
    obtain ⟨f, hf, hfe⟩ := ih
    obtain ⟨f', hc, hfe'⟩ := contracts_of_step hs hfe
    exact ⟨f', .trans _ _ _ hf (.rel _ _ (.inl hc)), hfe'⟩

/-- **Expressions are convertible exactly when the trees without names are.** -/
theorem convertible_iff {e f : Expr} : Convertible e f ↔ e.erase.Conv f.erase := by
  constructor
  · intro h
    induction h with
    | rel e f h =>
      rcases h with h | h
      · exact h.step.conv
      · rw [alphaEq_iff.mp h]
        exact .refl f.erase
    | refl e => exact .refl e.erase
    | symm e f _ ih => exact ih.symm
    | trans e f g _ _ ih ih' => exact ih.trans ih'
  · intro h
    obtain ⟨g, he, hf⟩ := h.join
    obtain ⟨e', hce, he'⟩ := convertible_of_steps he
    obtain ⟨f', hcf, hf'⟩ := convertible_of_steps hf
    have heq : e'.alphaEq f' = true := alphaEq_iff.mpr (he'.trans hf'.symm)
    exact .trans _ _ _ hce (.trans _ _ _ (.rel _ _ (.inr heq)) (.symm _ _ hcf))

/-- An expression without a redex has nothing to contract. -/
theorem not_contracts_of_hasRedex {e f : Expr} (h : e.hasRedex = false) : ¬ Contracts e f := by
  intro hc
  induction hc with
  | beta => simp [hasRedex] at h
  | lamType b e _ ih | piType b e _ ih =>
    rw [hasRedex, Bool.or_eq_false_iff] at h
    exact ih h.1
  | lamBody b e _ ih | piBody b e _ ih =>
    rw [hasRedex, Bool.or_eq_false_iff] at h
    exact ih h.2
  | @appFun f f' a hf ih =>
    cases f <;> simp_all [hasRedex]
  | @appArg f a a' ha ih =>
    cases f <;> simp_all [hasRedex]

theorem normal_of_hasRedex {e : Expr} (h : e.hasRedex = false) : e.erase.Normal := by
  intro g hs
  obtain ⟨f, hc, _⟩ := contracts_of_step hs rfl
  exact not_contracts_of_hasRedex h hc

end Expr

/-! ## 3. What expressions settle on -/

/-- **Conversion by normal forms is conversion.**  Expressions that settle on the same tree are
    convertible; convertible ones that settle on normal forms settle on the same. -/
theorem reduce_decides_conversion {cap₁ cap₂ : Int} {fuel₁ fuel₂ : Nat} {e₁ e₂ r₁ r₂ : Expr}
    (h₁ : (reduce cap₁ fuel₁ e₁).Yields r₁) (h₂ : (reduce cap₂ fuel₂ e₂).Yields r₂) :
    (r₁.alphaEq r₂ = true → e₁.Convertible e₂)
      ∧ (e₁.Convertible e₂ → r₁.hasRedex = false → r₂.hasRedex = false →
          r₁.alphaEq r₂ = true) := by
  have hc₁ : e₁.erase.Conv r₁.erase := (reduce_yields h₁).steps.conv
  have hc₂ : e₂.erase.Conv r₂.erase := (reduce_yields h₂).steps.conv
  constructor
  · intro heq
    rw [Expr.alphaEq_iff] at heq
    rw [heq] at hc₁
    exact Expr.convertible_iff.mpr (hc₁.trans hc₂.symm)
  · intro hc hn₁ hn₂
    have hc : r₁.erase.Conv r₂.erase := hc₁.symm.trans ((Expr.convertible_iff.mp hc).trans hc₂)
    exact Expr.alphaEq_iff.mpr
      (hc.eq_of_normal (Expr.normal_of_hasRedex hn₁) (Expr.normal_of_hasRedex hn₂))

/-- `λa:* . (λx:* . λy:* . x) a`, where the argument goes below a binder, and
    `λa:* . λb:* . (λx:* . x) a` settle on `λa:* . λb:* . a`. -/
theorem reduce_decides_conversion_const :
    let e₁ : Expr := .lam (.named "z") .star (.app (.lam (.named "x") .star
      (.lam (.named "y") .star (.var (.bound ⟨1, "x"⟩)))) (.var (.bound ⟨0, "z"⟩)))
    let e₂ : Expr := .lam (.named "a") .star (.lam (.named "b") .star
      (.app (.lam (.named "x") .star (.var (.bound ⟨0, "x"⟩))) (.var (.bound ⟨1, "a"⟩))))
    let r₁ : Expr := .lam (.named "z") .star (.lam (.named "y") .star (.var (.bound ⟨1, "z"⟩)))
    let r₂ : Expr := .lam (.named "a") .star (.lam (.named "b") .star (.var (.bound ⟨1, "a"⟩)))
    (reduce 9 4 e₁).Yields r₁ ∧ (reduce 9 4 e₂).Yields r₂ ∧ e₁.Convertible e₂
      ∧ r₁.hasRedex = false ∧ r₂.hasRedex = false ∧ r₁.alphaEq r₂ = true := by
  intro e₁ e₂ r₁ r₂
  have h₁ : (reduce 9 4 e₁).Yields r₁ := ⟨_, rfl⟩
  have h₂ : (reduce 9 4 e₂).Yields r₂ := ⟨_, rfl⟩
  obtain ⟨hconv, hnormal⟩ := reduce_decides_conversion h₁ h₂
  have hc : e₁.Convertible e₂ := hconv (by decide)
  exact ⟨h₁, h₂, hc, by decide, by decide, hnormal hc (by decide) (by decide)⟩

end Constructions
