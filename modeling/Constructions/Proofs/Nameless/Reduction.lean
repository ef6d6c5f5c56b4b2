import Mathlib.Logic.Function.Iterate
import Mathlib.Logic.Relation
import Constructions.Proofs.Nameless.Erase

/-!
# β-reduction of nameless trees

* `Step`, `Steps`, `Conv` -- one contraction anywhere, several in turn, and the equivalence they
  generate.
* `Par`, `dev` -- contracting some redexes of a tree at once, and contracting all of them.  What
  some contractions leave over, further ones catch up with (`Par.dev`).
* `Steps.confluent`, `Conv.join` -- so reductions of one tree meet again, and convertible trees have
  a common reduct.
* `Conv.pi_inj`, `Conv.eq_of_normal` -- a Π determines its parts and a class of convertible trees
  has at most one normal form.
* `steps_pass` -- a pass is a sequence of contractions.
-/

namespace Constructions

namespace Nameless

open Relation

/-! ## 1. Steps -/

/-- One contraction, anywhere in a tree. -/
inductive Step : Nameless → Nameless → Prop
  | beta (A e a : Nameless) : Step (app (lam A e) a) (e.inst a)
  | lamType {A A' : Nameless} (e : Nameless) (h : Step A A') : Step (lam A e) (lam A' e)
  | lamBody (A : Nameless) {e e' : Nameless} (h : Step e e') : Step (lam A e) (lam A e')
  | piType {A A' : Nameless} (B : Nameless) (h : Step A A') : Step (pi A B) (pi A' B)
  | piBody (A : Nameless) {B B' : Nameless} (h : Step B B') : Step (pi A B) (pi A B')
  | appFun {f f' : Nameless} (a : Nameless) (h : Step f f') : Step (app f a) (app f' a)
  | appArg (f : Nameless) {a a' : Nameless} (h : Step a a') : Step (app f a) (app f a')

/-- Contractions in turn. -/
abbrev Steps : Nameless → Nameless → Prop := ReflTransGen Step

/-- The equivalence that contractions generate. -/
abbrev Conv : Nameless → Nameless → Prop := EqvGen Step

theorem Steps.lam {A A' e e' : Nameless} (hA : Steps A A') (he : Steps e e') :
    Steps (lam A e) (lam A' e') :=
  (hA.lift (Nameless.lam · e) fun _ _ h => .lamType e h).trans
    (he.lift (Nameless.lam A') fun _ _ h => .lamBody A' h)

theorem Steps.pi {A A' B B' : Nameless} (hA : Steps A A') (hB : Steps B B') :
    Steps (pi A B) (pi A' B') :=
  (hA.lift (Nameless.pi · B) fun _ _ h => .piType B h).trans
    (hB.lift (Nameless.pi A') fun _ _ h => .piBody A' h)

theorem Steps.app {f f' a a' : Nameless} (hf : Steps f f') (ha : Steps a a') :
    Steps (app f a) (app f' a') :=
  (hf.lift (Nameless.app · a) fun _ _ h => .appFun a h).trans
    (ha.lift (Nameless.app f') fun _ _ h => .appArg f' h)

theorem Steps.conv {e f : Nameless} (h : Steps e f) : Conv e f :=
  EqvGen.reflTransGen_le_eqvGen _ _ _ h

/-- Trees with a common reduct are convertible. -/
theorem Conv.of_join {e f g : Nameless} (he : Steps e g) (hf : Steps f g) : Conv e f :=
  .trans _ _ _ he.conv (.symm _ _ hf.conv)

/-- A pass is a sequence of contractions. -/
theorem steps_pass (e : Nameless) : Steps e e.pass := by
  fun_induction pass e with
  | case1 A e ihA ihe => exact ihA.lam ihe
  | case2 A B ihA ihB => exact ihA.pi ihB
  | case3 A e a => exact .single (.beta A e a)
  | case4 f a hf ihf iha => exact ihf.app iha
  | case5 e => exact .refl

theorem steps_iterate_pass (n : Nat) (e : Nameless) : Steps e (pass^[n] e) := by
  induction n generalizing e with
  | zero => exact .refl
  | succ n ih => exact (steps_pass e).trans (ih e.pass)

/-! ## 2. Contracting at once -/

/-- Contracting some of the redexes that a tree has, all at once. -/
inductive Par : Nameless → Nameless → Prop
  | refl (e : Nameless) : Par e e
  | lam {A A' e e' : Nameless} (hA : Par A A') (he : Par e e') : Par (lam A e) (lam A' e')
  | pi {A A' B B' : Nameless} (hA : Par A A') (hB : Par B B') : Par (pi A B) (pi A' B')
  | app {f f' a a' : Nameless} (hf : Par f f') (ha : Par a a') : Par (app f a) (app f' a')
  | beta (A : Nameless) {e e' a a' : Nameless} (he : Par e e') (ha : Par a a') :
      Par (app (lam A e) a) (e'.inst a')

theorem Step.par {e f : Nameless} (h : Step e f) : Par e f := by
  induction h with
  | beta A e a => exact .beta A (.refl e) (.refl a)
  | lamType e _ ih => exact .lam ih (.refl e)
  | lamBody A _ ih => exact .lam (.refl A) ih
  | piType B _ ih => exact .pi ih (.refl B)
  | piBody A _ ih => exact .pi (.refl A) ih
  | appFun a _ ih => exact .app ih (.refl a)
  | appArg f _ ih => exact .app (.refl f) ih

theorem Par.steps {e f : Nameless} (h : Par e f) : Steps e f := by
  induction h with
  | refl e => exact .refl
  | lam _ _ ihA ihe => exact ihA.lam ihe
  | pi _ _ ihA ihB => exact ihA.pi ihB
  | app _ _ ihf iha => exact ihf.app iha
  | beta A _ _ ihe iha => exact ((Steps.lam .refl ihe).app iha).tail (.beta A _ _)

theorem Par.rename {e f : Nameless} (h : Par e f) (ξ : Nat → Nat) :
    Par (e.rename ξ) (f.rename ξ) := by
  induction h generalizing ξ with
  | refl e => exact .refl _
  | lam _ _ ihA ihe => exact .lam (ihA ξ) (ihe (upRen ξ))
  | pi _ _ ihA ihB => exact .pi (ihA ξ) (ihB (upRen ξ))
  | app _ _ ihf iha => exact .app (ihf ξ) (iha ξ)
  | beta A _ _ ihe iha =>
    rw [rename_inst]
    exact .beta _ (ihe (upRen ξ)) (iha ξ)

theorem Par.up {σ τ : Nat → Nameless} (h : ∀ n, Par (σ n) (τ n)) (n : Nat) :
    Par (Nameless.up σ n) (Nameless.up τ n) := by
  cases n with
  | zero => exact .refl _
  | succ n => exact (h n).rename Nat.succ

/-- Contracting in what is put into a tree. -/
theorem Par.subst_left {σ τ : Nat → Nameless} (h : ∀ n, Par (σ n) (τ n)) (e : Nameless) :
    Par (e.subst σ) (e.subst τ) := by
  induction e generalizing σ τ with
  | idx n => exact h n
  | lam A e ihA ihe => exact .lam (ihA h) (ihe (Par.up h))
  | pi A B ihA ihB => exact .pi (ihA h) (ihB (Par.up h))
  | app f a ihf iha => exact .app (ihf h) (iha h)
  | _ => exact .refl _

/-- Contracting in a tree and in what is put into it. -/
theorem Par.subst {e f : Nameless} (h : Par e f) {σ τ : Nat → Nameless}
    (hσ : ∀ n, Par (σ n) (τ n)) : Par (e.subst σ) (f.subst τ) := by
  induction h generalizing σ τ with
  | refl e => exact Par.subst_left hσ e
  | lam _ _ ihA ihe => exact .lam (ihA hσ) (ihe (Par.up hσ))
  | pi _ _ ihA ihB => exact .pi (ihA hσ) (ihB (Par.up hσ))
  | app _ _ ihf iha => exact .app (ihf hσ) (iha hσ)
  | beta A _ _ ihe iha =>
    rw [subst_inst]
    exact .beta _ (ihe (Par.up hσ)) (iha hσ)

theorem Par.inst {e f a b : Nameless} (h : Par e f) (ha : Par a b) : Par (e.inst a) (f.inst b) := by
  refine h.subst fun n => ?_
  cases n with
  | zero => exact ha
  | succ n => exact .refl _

/-- Every redex of a tree contracted. -/
def dev : Nameless → Nameless
  | lam A e => lam A.dev e.dev
  | pi A B => pi A.dev B.dev
  | app (lam _ e) a => e.dev.inst a.dev
  | app f a => app f.dev a.dev
  | e => e

theorem dev_app {f : Nameless} (hf : ∀ A e, f ≠ lam A e) (a : Nameless) :
    (app f a).dev = app f.dev a.dev := by
  cases f with
  | lam A e => exact absurd rfl (hf A e)
  | _ => rfl

theorem par_dev (e : Nameless) : Par e e.dev := by
  fun_induction dev e with
  | case1 A e ihA ihe => exact .lam ihA ihe
  | case2 A B ihA ihB => exact .pi ihA ihB
  | case3 A e a ihe iha => exact .beta A ihe iha
  | case4 f a hf ihf iha => exact .app ihf iha
  | case5 e => exact .refl e

theorem Par.of_lam {A e f : Nameless} (h : Par (Nameless.lam A e) f) :
    ∃ A' e', f = Nameless.lam A' e' ∧ Par A A' ∧ Par e e' := by
  cases h with
  | refl => exact ⟨A, e, rfl, .refl A, .refl e⟩
  | lam hA he => exact ⟨_, _, rfl, hA, he⟩

/-- **What some contractions leave over, further ones catch up with.** -/
theorem Par.dev {e f : Nameless} (h : Par e f) : Par f e.dev := by
  induction h with
  | refl e => exact par_dev e
  | lam _ _ ihA ihe => exact .lam ihA ihe
  | pi _ _ ihA ihB => exact .pi ihA ihB
  | @app g g' a a' hg _ ihg iha =>
    by_cases hlam : ∃ A e, g = Nameless.lam A e
    · -- the function is a λ that has not been contracted yet: the development contracts it
      obtain ⟨A, e, rfl⟩ := hlam
      obtain ⟨A', e', rfl, _, _⟩ := hg.of_lam
      obtain ⟨A'', e'', heq, _, he⟩ := ihg.of_lam
      cases heq
      exact .beta A' he iha
    · rw [dev_app (fun A e h => hlam ⟨A, e, h⟩)]
      exact .app ihg iha
  | beta A _ _ ihe iha => exact ihe.inst iha

/-! ## 3. Confluence -/

theorem steps_iff_pars {e f : Nameless} : Steps e f ↔ ReflTransGen Par e f :=
  ⟨ReflTransGen.mono (fun _ _ h => Step.par h) _ _,
    reflTransGen_closed (fun _ _ h => Par.steps h) _ _⟩

/-- **Reductions of one tree meet again.** -/
theorem Steps.confluent {e f g : Nameless} (hf : Steps e f) (hg : Steps e g) :
    ∃ h, Steps f h ∧ Steps g h := by
  obtain ⟨h, hfh, hgh⟩ := church_rosser
    (fun a b c hb hc => ⟨a.dev, .single hb.dev, .single (Par.dev hc)⟩)
    (steps_iff_pars.mp hf) (steps_iff_pars.mp hg)
  exact ⟨h, steps_iff_pars.mpr hfh, steps_iff_pars.mpr hgh⟩

/-- **Convertible trees have a common reduct.** -/
theorem Conv.join {e f : Nameless} (h : Conv e f) : ∃ g, Steps e g ∧ Steps f g := by
  induction h with
  | rel e f h => exact ⟨f, .single h, .refl⟩
  | refl e => exact ⟨e, .refl, .refl⟩
  | symm e f _ ih =>
    obtain ⟨g, he, hf⟩ := ih
    exact ⟨g, hf, he⟩
  | trans e f g _ _ ih ih' =>
    obtain ⟨u, he, hf⟩ := ih
    obtain ⟨v, hf', hg⟩ := ih'
    obtain ⟨w, hu, hv⟩ := hf.confluent hf'
    exact ⟨w, he.trans hu, hg.trans hv⟩

theorem Conv.refl (e : Nameless) : Conv e e := EqvGen.refl e

theorem Conv.symm {e f : Nameless} (h : Conv e f) : Conv f e := EqvGen.symm _ _ h

theorem Conv.trans {e f g : Nameless} (h : Conv e f) (h' : Conv f g) : Conv e g :=
  EqvGen.trans _ _ _ h h'

theorem Step.conv {e f : Nameless} (h : Step e f) : Conv e f := EqvGen.rel _ _ h

/-- A map that contractions pass through keeps convertibility. -/
theorem Conv.map {F : Nameless → Nameless} (hF : ∀ e f, Step e f → Par (F e) (F f))
    {e f : Nameless} (h : Conv e f) : Conv (F e) (F f) := by
  induction h with
  | rel e f h => exact (hF e f h).steps.conv
  | refl e => exact .refl _
  | symm e f _ ih => exact ih.symm
  | trans e f g _ _ ih ih' => exact ih.trans ih'

theorem Conv.rename {e f : Nameless} (h : Conv e f) (ξ : Nat → Nat) :
    Conv (e.rename ξ) (f.rename ξ) :=
  h.map fun _ _ hs => hs.par.rename ξ

theorem Conv.subst {e f : Nameless} (h : Conv e f) (σ : Nat → Nameless) :
    Conv (e.subst σ) (f.subst σ) :=
  h.map fun _ _ hs => hs.par.subst fun n => .refl (σ n)

theorem Conv.inst {e f : Nameless} (h : Conv e f) (a : Nameless) : Conv (e.inst a) (f.inst a) :=
  h.subst (single a)

/-- Contracting the argument of an instance. -/
theorem Conv.inst_arg {a b : Nameless} (h : Step a b) (e : Nameless) :
    Conv (e.inst a) (e.inst b) :=
  (Par.inst (.refl e) h.par).steps.conv

theorem Conv.pi {A A' B B' : Nameless} (hA : Conv A A') (hB : Conv B B') :
    Conv (pi A B) (pi A' B') :=
  (hA.map (F := (Nameless.pi · B)) fun _ _ h => .pi h.par (.refl B)).trans
    (hB.map (F := Nameless.pi A') fun _ _ h => .pi (.refl A') h.par)

/-! ## 4. Shapes that reduction keeps -/

theorem Steps.of_pi {A B f : Nameless} (h : Steps (Nameless.pi A B) f) :
    ∃ A' B', f = Nameless.pi A' B' ∧ Steps A A' ∧ Steps B B' := by
  induction h with
  | refl => exact ⟨A, B, rfl, .refl, .refl⟩
  | tail _ hs ih =>
    obtain ⟨A', B', rfl, hA, hB⟩ := ih
    cases hs with
    | piType _ h => exact ⟨_, B', rfl, hA.tail h, hB⟩
    | piBody _ h => exact ⟨A', _, rfl, hA, hB.tail h⟩

/-- No contraction starts here. -/
def Normal (e : Nameless) : Prop := ∀ f, ¬ Step e f

theorem normal_box : Normal box := fun _ h => nomatch h

theorem Normal.lam {A e : Nameless} (hA : A.Normal) (he : e.Normal) :
    (Nameless.lam A e).Normal := by
  intro f hs
  cases hs with
  | lamType _ hs => exact hA _ hs
  | lamBody _ hs => exact he _ hs

theorem Normal.pi {A B : Nameless} (hA : A.Normal) (hB : B.Normal) :
    (Nameless.pi A B).Normal := by
  intro f hs
  cases hs with
  | piType _ hs => exact hA _ hs
  | piBody _ hs => exact hB _ hs

theorem Normal.app {f a : Nameless} (hne : ∀ A e, f ≠ Nameless.lam A e) (hf : f.Normal)
    (ha : a.Normal) : (Nameless.app f a).Normal := by
  intro g hs
  cases hs with
  | beta A e a => exact hne A e rfl
  | appFun _ hs => exact hf _ hs
  | appArg _ hs => exact ha _ hs

theorem Normal.eq_of_steps {e f : Nameless} (he : e.Normal) (h : Steps e f) : f = e :=
  (reflTransGen_iff_eq he).mp h

/-- Anything convertible to a normal form reduces to it. -/
theorem Conv.steps_of_normal {e f : Nameless} (h : Conv e f) (hf : f.Normal) : Steps e f := by
  obtain ⟨g, he, hg⟩ := h.join
  rwa [hf.eq_of_steps hg] at he

/-- **Convertible normal forms are equal.** -/
theorem Conv.eq_of_normal {e f : Nameless} (h : Conv e f) (he : e.Normal) (hf : f.Normal) :
    e = f :=
  (he.eq_of_steps (h.steps_of_normal hf)).symm

/-- **A Π determines its parts up to conversion.** -/
theorem Conv.pi_inj {A B A' B' : Nameless} (h : Conv (Nameless.pi A B) (Nameless.pi A' B')) :
    Conv A A' ∧ Conv B B' := by
  obtain ⟨g, hl, hr⟩ := h.join
  obtain ⟨A₁, B₁, rfl, hA₁, hB₁⟩ := hl.of_pi
  obtain ⟨A₂, B₂, heq, hA₂, hB₂⟩ := hr.of_pi
  cases heq
  exact ⟨.of_join hA₁ hA₂, .of_join hB₁ hB₂⟩

/-- Anything convertible to a Π reduces to one. -/
theorem Conv.steps_pi {e A B : Nameless} (h : Conv e (Nameless.pi A B)) :
    ∃ A' B', Steps e (Nameless.pi A' B') ∧ Conv A' A ∧ Conv B' B := by
  obtain ⟨g, he, hg⟩ := h.join
  obtain ⟨A', B', rfl, hA, hB⟩ := hg.of_pi
  exact ⟨A', B', he, hA.conv.symm, hB.conv.symm⟩

end Nameless

end Constructions
