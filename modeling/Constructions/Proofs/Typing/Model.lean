import Constructions.Proofs.Nameless.Settled
import Constructions.Proofs.Typing.Classifier

/-!
# No tree applies to itself

A type means a number, and a constructor of types a function on such meanings, so that `ΠA . B` over
a type `A` has a larger number than `A`.  Contractions do not change meanings, so no type is
convertible to a Π over itself.

* `Meaning`, `meaning` -- constructors as functions of their arity over the natural numbers.
* `HasType.arity_meaning` -- the meaning of a tree has the arity of the kind it belongs to.
* `HasType.meaning_step` -- contractions keep meanings.
* `not_conv_pi_self`, `not_hasType_self` -- **no type is a Π over itself, so no tree applies to
  itself.**
* `Classifier.normal` -- a classifier that passes leave alone is normal.
-/

namespace Constructions

open Nameless

/-! ## 1. Meanings -/

/-- What a constructor of an arity is: a number for a type, a function for one of types. -/
def Arity.Carrier : Arity → Type
  | none => Unit
  | type => Nat
  | fn k l => k.Carrier → l.Carrier

/-- The constructor that gives zero everywhere. -/
def Arity.zero : (k : Arity) → k.Carrier
  | none => ()
  | type => (0 : Nat)
  | fn _ l => fun _ => l.zero

/-- A meaning with its arity. -/
structure Meaning where
  arity : Arity
  data : arity.Carrier

namespace Meaning

/-- The meaning of what is no constructor. -/
def nil : Meaning := ⟨.none, ()⟩

/-- Zero of an arity. -/
def zero (k : Arity) : Meaning := ⟨k, k.zero⟩

/-- The data at a given arity, zero if the meaning has another. -/
def cast (v : Meaning) (k : Arity) : k.Carrier := if h : v.arity = k then h ▸ v.data else k.zero

/-- The type of a number. -/
def ofNumber (n : Nat) : Meaning := ⟨.type, n⟩

/-- The number of a type. -/
def number (v : Meaning) : Nat := v.cast .type

/-- Applies a constructor. -/
def apply : Meaning → Meaning → Meaning
  | ⟨.fn k l, g⟩, v => ⟨l, g (v.cast k)⟩
  | _, _ => nil

/-- The constructor that `g` computes on meanings of arity `k`. -/
def lambda (k : Arity) (g : Meaning → Meaning) : Meaning :=
  if (g (zero k)).arity = .none then nil
  else ⟨.fn k (g (zero k)).arity, fun d => (g ⟨k, d⟩).cast (g (zero k)).arity⟩

theorem mk_cast {v : Meaning} {k : Arity} (h : v.arity = k) : ⟨k, v.cast k⟩ = v := by
  subst h
  simp [cast]

theorem eq_nil {v : Meaning} (h : v.arity = .none) : v = nil := by
  obtain ⟨k, d⟩ := v
  cases h
  rfl

@[simp] theorem number_ofNumber (n : Nat) : (ofNumber n).number = n := rfl

theorem arity_apply (f v : Meaning) : (f.apply v).arity = f.arity.codomain := by
  obtain ⟨k, g⟩ := f
  cases k <;> rfl

theorem arity_lambda (k : Arity) (g : Meaning → Meaning) :
    (lambda k g).arity = .arrow k (g (zero k)).arity := by
  unfold lambda Arity.arrow
  split <;> rfl

theorem lambda_congr {k : Arity} {g h : Meaning → Meaning} (heq : ∀ v, v.arity = k → g v = h v) :
    lambda k g = lambda k h := by
  have hd (d : k.Carrier) : g ⟨k, d⟩ = h ⟨k, d⟩ := heq _ rfl
  have hz : g (zero k) = h (zero k) := hd k.zero
  unfold lambda
  rw [hz]
  simp only [hd]

/-- Applying what was abstracted. -/
theorem apply_lambda {k : Arity} {g : Meaning → Meaning} {v : Meaning} (hv : v.arity = k)
    (hg : (g v).arity = (g (zero k)).arity) : (lambda k g).apply v = g v := by
  unfold lambda
  split
  · rename_i hnone
    exact (eq_nil (hg.trans hnone)).symm
  · simp only [apply, mk_cast hv]
    exact mk_cast hg

end Meaning

/-- Puts `v` in front. -/
def Nameless.push {α : Type} (v : α) (ρ : Nat → α) : Nat → α
  | 0 => v
  | n + 1 => ρ n

theorem Nameless.push_comp_upRen {α : Type} (v : α) (ρ : Nat → α) (ξ : Nat → Nat) :
    push v ρ ∘ upRen ξ = push v (ρ ∘ ξ) := by
  funext n
  cases n <;> rfl

/-- The arity of the constructors that a declaration declares. -/
def declaredArity (G : List (String × Nameless)) (x : String) : Arity :=
  match G.lookup x with
  | some A => A.arity
  | none => .none

/-- The meaning of a tree.  A declared constructor is zero; a Π over a type is larger than the
    type, and one over a kind is zero. -/
def meaning (G : List (String × Nameless)) : (Nat → Meaning) → Nameless → Meaning
  | ρ, idx n => ρ n
  | _, const x => .zero (declaredArity G x)
  | ρ, lam A e => .lambda A.arity fun v => meaning G (push v ρ) e
  | ρ, pi A B =>
    let b := meaning G (push (.zero A.arity) ρ) B
    if b.arity = .none then .nil
    else .ofNumber (if A.arity = .none then (meaning G ρ A).number + b.number + 1 else 0)
  | ρ, app f a => (meaning G ρ f).apply (meaning G ρ a)
  | _, _ => .nil

section

variable {G : List (String × Nameless)}

theorem meaning_rename (ρ : Nat → Meaning) (ξ : Nat → Nat) (e : Nameless) :
    meaning G ρ (e.rename ξ) = meaning G (ρ ∘ ξ) e := by
  induction e generalizing ρ ξ with
  | lam A e _ ihe => simp only [rename, meaning, arity_rename, ihe, push_comp_upRen]
  | pi A B ihA ihB => simp only [rename, meaning, arity_rename, ihA, ihB, push_comp_upRen]
  | app f a ihf iha => simp only [rename, meaning, ihf, iha]
  | _ => rfl

theorem meaning_comp_up (v : Meaning) (ρ : Nat → Meaning) (σ : Nat → Nameless) :
    meaning G (push v ρ) ∘ up σ = push v (meaning G ρ ∘ σ) := by
  funext n
  cases n with
  | zero => rfl
  | succ n => exact meaning_rename (push v ρ) Nat.succ (σ n)

/-- What is put for variables counts by its meaning. -/
theorem meaning_subst {σ : Nat → Nameless} (hσ : ∀ n, (σ n).arity = .none) (ρ : Nat → Meaning)
    (e : Nameless) : meaning G ρ (e.subst σ) = meaning G (meaning G ρ ∘ σ) e := by
  induction e generalizing ρ σ with
  | lam A e _ ihe =>
    simp only [subst, meaning, arity_subst hσ, ihe (arity_up hσ), meaning_comp_up]
  | pi A B ihA ihB =>
    simp only [subst, meaning, arity_subst hσ, ihA hσ, ihB (arity_up hσ), meaning_comp_up]
  | app f a ihf iha => simp only [subst, meaning, ihf hσ, iha hσ]
  | _ => rfl

theorem meaning_inst {a : Nameless} (ha : a.arity = .none) (ρ : Nat → Meaning) (e : Nameless) :
    meaning G ρ (e.inst a) = meaning G (push (meaning G ρ a) ρ) e := by
  rw [inst, meaning_subst (arity_single ha)]
  congr 1
  funext n
  cases n <;> rfl

/-- The arity of a meaning depends on arities only. -/
theorem arity_meaning_congr {ρ ρ' : Nat → Meaning} (h : ∀ n, (ρ n).arity = (ρ' n).arity)
    (e : Nameless) : (meaning G ρ e).arity = (meaning G ρ' e).arity := by
  have hpush {ρ ρ' : Nat → Meaning} (h : ∀ n, (ρ n).arity = (ρ' n).arity) (v : Meaning) (n : Nat) :
      (push v ρ n).arity = (push v ρ' n).arity := by
    cases n with
    | zero => rfl
    | succ n => exact h n
  induction e generalizing ρ ρ' with
  | idx n => exact h n
  | lam A e _ ihe => simp only [meaning, Meaning.arity_lambda, ihe (hpush h _)]
  | pi A B _ ihB =>
    simp only [meaning, ihB (hpush h _)]
    split <;> rfl
  | app f a ihf _ => simp only [meaning, Meaning.arity_apply, ihf h]
  | _ => rfl

theorem arity_meaning_push {v w : Meaning} (h : v.arity = w.arity) (ρ : Nat → Meaning)
    (e : Nameless) :
    (meaning G (push v ρ) e).arity = (meaning G (push w ρ) e).arity := by
  refine arity_meaning_congr (fun n => ?_) e
  cases n with
  | zero => exact h
  | succ n => rfl

/-- A redex has the meaning of its contraction. -/
theorem meaning_beta {A a : Nameless} (ha : a.arity = .none) {ρ : Nat → Meaning}
    (hv : (meaning G ρ a).arity = A.arity) (e : Nameless) :
    meaning G ρ (app (lam A e) a) = meaning G ρ (e.inst a) := by
  rw [meaning_inst ha]
  exact Meaning.apply_lambda hv (arity_meaning_push hv ρ e)

/-- A Π over a type has a larger number than the type. -/
theorem number_lt_pi {A B : Nameless} (hA : A.arity = .none) {ρ : Nat → Meaning}
    (hP : (meaning G ρ (pi A B)).arity = .type) :
    (meaning G ρ A).number < (meaning G ρ (pi A B)).number := by
  simp only [meaning, hA] at hP ⊢
  split at hP
  · cases hP
  · rename_i hb
    rw [if_neg hb, Meaning.number_ofNumber]
    simp only [if_true]
    omega

/-! ## 2. Meanings of typed trees -/

variable {Δ : List Nameless}

/-- The meanings of the binders have the arities of their types. -/
def Assigns (ρ : Nat → Meaning) (Δ : List Nameless) : Prop :=
  ∀ n A, Δ[n]? = some A → (ρ n).arity = A.arity

theorem Assigns.push {ρ : Nat → Meaning} (h : Assigns ρ Δ) {A : Nameless} {v : Meaning}
    (hv : v.arity = A.arity) : Assigns (push v ρ) (A :: Δ) := by
  intro n B hB
  cases n with
  | zero =>
    cases hB
    exact hv
  | succ n => exact h n B hB

theorem exists_assigns (Δ : List Nameless) : ∃ ρ, Assigns ρ Δ := by
  induction Δ with
  | nil => exact ⟨fun _ => .nil, nofun⟩
  | cons A Δ ih =>
    obtain ⟨ρ, hρ⟩ := ih
    exact ⟨_, hρ.push (v := .zero A.arity) rfl⟩

/-- **The meaning of a tree has the arity of the kind it belongs to.** -/
theorem HasType.arity_meaning (hG : TypedDecls G) {e A C : Nameless} (h : HasType False G Δ e A)
    (hΔ : TypedBinders G Δ) {ρ : Nat → Meaning} (hρ : Assigns ρ Δ) (hC : Classifier G Δ C)
    (hc : Conv A C) : (meaning G ρ e).arity = C.arity := by
  induction h generalizing C ρ with
  | sort => exact (Classifier.box).arity_conv hG hΔ hC hc
  | @bound G Δ n A s hn hs hA =>
    obtain ⟨t, ht, hAt⟩ := hΔ n A hn
    have hA' := hAt.weaken_drop ht (n + 1) (List.getElem?_eq_some_iff.mp hn).1
    rw [← (Classifier.type ⟨t, ht, hA'⟩).arity_conv hG hΔ hC hc]
    exact (hρ n A hn).trans (arity_rename _ A).symm
  | @declared G Δ x A s hx hcl hs hA =>
    obtain ⟨t, ht, hAt⟩ := hG x A hx
    rw [← (Classifier.type ⟨t, ht, hAt.weaken_closed hcl ht Δ⟩).arity_conv hG hΔ hC hc]
    simp only [meaning, Meaning.zero, declaredArity, hx]
  | @form G Δ A B s₁ s₂ h₁ h₂ hA hB ihA ihB =>
    have hb := ihB hG (hΔ.cons ⟨s₁, h₁, hA⟩) (hρ.push (v := .zero A.arity) rfl)
      (IsSort.classifier h₂) (.refl s₂)
    rw [← (IsSort.classifier h₂).arity_conv hG hΔ hC hc]
    simp only [meaning, hb]
    rcases h₂ with rfl | rfl <;> rfl
  | @abst G Δ A e B s₁ s h₁ hs hA he hP ihA ihe =>
    have hΔ' := hΔ.cons ⟨s₁, h₁, hA⟩
    obtain ⟨B₀, hcB, hB₀, _⟩ := he.classified hG hΔ'
    have hb := ihe hG hΔ' (hρ.push (v := .zero A.arity) rfl) hB₀ hcB
    have hcP : Conv (Nameless.pi A B₀) C := (Conv.pi (.refl A) hcB).symm.trans hc
    rw [← (Classifier.pi ⟨s₁, h₁, hA⟩ hB₀).arity_conv hG hΔ hC hcP]
    rw [meaning, Meaning.arity_lambda, hb]
    rfl
  | @appl G Δ f a A B hf ha ihf iha =>
    obtain ⟨F, hcF, hF, _⟩ := hf.classified hG hΔ
    obtain ⟨A', B', hs, hcA, hcB, hA', hB'⟩ := hF.function hcF
    have ha' := ha.convert_unchecked hcA
    have hBa := (hB'.subst (.single ha')).1
    rw [← hBa.arity_conv hG hΔ hC ((hcB.inst a).symm.trans hc)]
    rw [meaning, Meaning.arity_apply, ihf hG hΔ hρ (hF.steps hs).1 (.pi hcA hcB), arity,
      Arity.codomain_arrow]
    exact (arity_inst (ha'.arity_none hG hΔ hA') B').symm
  | conv hs he hcA hB ih => exact ih hG hΔ hρ hC (hcA.trans hc)

theorem HasType.arity_meaning_type (hG : TypedDecls G) {e A : Nameless} (h : HasType False G Δ e A)
    (hΔ : TypedBinders G Δ) {ρ : Nat → Meaning} (hρ : Assigns ρ Δ) (hA : IsType G Δ A) :
    (meaning G ρ e).arity = A.arity :=
  h.arity_meaning hG hΔ hρ (.type hA) (.refl A)

/-- **A contraction keeps the meaning of a typed tree.** -/
theorem HasType.meaning_step (hG : TypedDecls G) {e f C : Nameless} (h : HasType False G Δ e C)
    (hΔ : TypedBinders G Δ) {ρ : Nat → Meaning} (hρ : Assigns ρ Δ) (hs : Step e f) :
    meaning G ρ f = meaning G ρ e := by
  induction hs generalizing Δ C ρ with
  | beta A e a =>
    obtain ⟨hA, ha⟩ := h.redex_argument
    exact (meaning_beta (ha.arity_none hG hΔ hA) (ha.arity_meaning_type hG hΔ hρ hA) e).symm
  | lamType e hs _ =>
    obtain ⟨_, _, _, hA, _, _⟩ := h.premises
    simp only [meaning, hA.arity_step hG hΔ hs]
  | lamBody A _ ih =>
    obtain ⟨_, s, hs, hA, he, _⟩ := h.premises
    exact Meaning.lambda_congr fun v hv => ih he (hΔ.cons ⟨s, hs, hA⟩) (hρ.push hv)
  | piType B hs ih =>
    obtain ⟨_, _, _, _, hA, _, _⟩ := h.premises
    simp only [meaning, hA.arity_step hG hΔ hs, ih hA hΔ hρ]
  | piBody A _ ih =>
    obtain ⟨s, _, hs, _, hA, hB, _⟩ := h.premises
    simp only [meaning, ih hB (hΔ.cons ⟨s, hs, hA⟩) (hρ.push (v := .zero A.arity) rfl)]
  | appFun a _ ih =>
    obtain ⟨_, _, hf, _, _⟩ := h.premises
    simp only [meaning, ih hf hΔ hρ]
  | appArg f _ ih =>
    obtain ⟨_, _, _, ha, _⟩ := h.premises
    simp only [meaning, ih ha hΔ hρ]

theorem IsType.meaning_steps (hG : TypedDecls G) (hΔ : TypedBinders G Δ) {ρ : Nat → Meaning}
    (hρ : Assigns ρ Δ) {A B : Nameless} (h : IsType G Δ A) (hs : Steps A B) :
    meaning G ρ B = meaning G ρ A := by
  induction hs with
  | refl => rfl
  | tail hs hlast ih =>
    obtain ⟨_, _, hB⟩ := h.steps hs
    exact (hB.meaning_step hG hΔ hρ hlast).trans ih

/-- Convertible types have the same meaning. -/
theorem IsType.meaning_conv (hG : TypedDecls G) (hΔ : TypedBinders G Δ) {ρ : Nat → Meaning}
    (hρ : Assigns ρ Δ) {A B : Nameless} (hA : IsType G Δ A) (hB : IsType G Δ B) (hc : Conv A B) :
    meaning G ρ A = meaning G ρ B := by
  obtain ⟨C, hAC, hBC⟩ := hc.join
  exact (hA.meaning_steps hG hΔ hρ hAC).symm.trans (hB.meaning_steps hG hΔ hρ hBC)

/-! ## 3. Nothing applies to itself -/

/-- **No type is convertible to a Π over itself.** -/
theorem not_conv_pi_self (hG : TypedDecls G) (hΔ : TypedBinders G Δ) {A B : Nameless}
    (hA : IsType G Δ A) : ¬ Conv A (Nameless.pi A B) := by
  intro hc
  obtain ⟨A', B', hs, hcA, _⟩ := hc.steps_pi
  have hP : IsType G Δ (Nameless.pi A' B') := hA.steps hs
  have hA' : IsType G Δ A' := hP.of_pi.1
  have hkA : A'.arity = A.arity := (Classifier.type hA').arity_conv hG hΔ (.type hA) hcA
  have hkP : (Nameless.pi A' B').arity = A.arity := (Classifier.type hA).arity_steps hG hΔ hs
  by_cases hnone : A.arity = .none
  · -- no kind, so `A` has a number, which is that of a Π over `A`
    obtain ⟨ρ, hρ⟩ := exists_assigns Δ
    have hvP : meaning G ρ (Nameless.pi A' B') = meaning G ρ A := hA.meaning_steps hG hΔ hρ hs
    have hvA : meaning G ρ A' = meaning G ρ A := hA'.meaning_conv hG hΔ hρ hA hcA
    have htype : (meaning G ρ (Nameless.pi A' B')).arity = .type := by
      obtain ⟨s, hsort, hPs⟩ := hP
      rcases hsort with rfl | rfl
      · exact hPs.arity_meaning_type hG hΔ hρ ⟨box, isSort_box, .sort⟩
      · exact absurd (hkP.trans hnone) (hPs.arity_of_kind hG hΔ)
    have hlt := number_lt_pi (hkA.trans hnone) htype
    rw [hvP, hvA] at hlt
    exact Nat.lt_irrefl _ hlt
  · rw [arity, hkA] at hkP
    exact Arity.arrow_ne_left _ hnone hkP

/-- **No tree that has a type applies to itself.** -/
theorem not_hasType_self (hG : TypedDecls G) (hΔ : TypedBinders G Δ) {f C : Nameless} :
    ¬ HasType False G Δ (app f f) C := by
  intro h
  obtain ⟨A, B, hf, hf', _⟩ := h.premises
  obtain ⟨F, hcF, hF, _⟩ := hf.classified hG hΔ
  obtain ⟨A', B', _, hcA, hcB, hA', _⟩ := hF.function hcF
  have hcf : Conv A (Nameless.pi A B) := hf'.unique hf
  exact not_conv_pi_self hG hΔ hA' (hcA.symm.trans (hcf.trans (.pi hcA hcB)))

/-! ## 4. Quiet classifiers are normal -/

/-- A typed tree whose redexes all lie in self-applications has none. -/
theorem HasType.normal (hG : TypedDecls G) {e C : Nameless} (h : HasType False G Δ e C)
    (hΔ : TypedBinders G Δ) (hq : e.Quiet) : e.Normal := by
  induction e generalizing Δ C with
  | lam A e ihA ihe =>
    obtain ⟨_, s, hs, hA, he, _⟩ := h.premises
    exact (ihA hA hΔ hq.1).lam (ihe he (hΔ.cons ⟨s, hs, hA⟩) hq.2)
  | pi A B ihA ihB =>
    obtain ⟨s, _, hs, _, hA, hB, _⟩ := h.premises
    exact (ihA hA hΔ hq.1).pi (ihB hB (hΔ.cons ⟨s, hs, hA⟩) hq.2)
  | app f a ihf iha =>
    obtain ⟨_, _, hf, ha, _⟩ := h.premises
    by_cases hlam : ∃ A e, f = lam A e
    · obtain ⟨A, e, rfl⟩ := hlam
      obtain ⟨rfl, _⟩ := hq
      obtain ⟨_, s, hs, hA, he, _⟩ := hf.premises
      exact (not_hasType_self hG (hΔ.cons ⟨s, hs, hA⟩) he).elim
    · have hne : ∀ A e, f ≠ lam A e := fun A e heq => hlam ⟨A, e, heq⟩
      obtain ⟨hqf, hqa⟩ := (quiet_app hne a).mp hq
      exact .app hne (ihf hf hΔ hqf) (iha ha hΔ hqa)
  | _ => exact fun f hs => nomatch hs

theorem Classifier.normal (hG : TypedDecls G) {A : Nameless} (h : Classifier G Δ A)
    (hΔ : TypedBinders G Δ) (hq : A.Quiet) : A.Normal := by
  induction h with
  | box => exact normal_box
  | type hA =>
    obtain ⟨_, _, hA⟩ := hA
    exact hA.normal hG hΔ hq
  | pi hA hB ihB =>
    obtain ⟨_, _, hA'⟩ := id hA
    exact (hA'.normal hG hΔ hq.1).pi (ihB (hΔ.cons hA) hq.2)

/-- **A type that passes leave alone is normal.** -/
theorem HasType.normal_type (hG : TypedDecls G) (hΔ : TypedBinders G Δ) {e A : Nameless}
    (h : HasType False G Δ e A) (hp : A.pass = A) : A.Normal := by
  obtain ⟨C, hc, hC, _⟩ := h.classified hG hΔ
  obtain ⟨D, hAD, hCD⟩ := hc.join
  have hq := quiet_of_pass hp
  exact hq.normal hAD ((hC.steps hCD).1.normal hG hΔ (hq.steps hAD))

end

end Constructions
