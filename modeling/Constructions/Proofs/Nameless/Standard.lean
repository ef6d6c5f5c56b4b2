import Constructions.Proofs.Nameless.Reduction

/-!
# Standard reductions, and why passes find normal forms

A pass contracts the outermost redexes of a tree and nothing below them.  It finds a normal form
whenever there is one.

* `Head`, `Heads` -- contractions at the head of a tree, the end of its spine of applications.
* `Std` -- reductions that contract at the head first and in the parts afterwards; every reduction
  can be rearranged into such a one (`std_of_steps`).
* `Headed` -- nothing is left to contract at the head; `exists_headed_pass` -- passes get there when
  head contractions do, because a pass does all that the head contraction does
  (`Head.steps_pass`) and what else it does costs no further head contraction (`Head.commute`).
* `exists_iterate_pass` -- **passes reach every normal form that a tree has.**
-/

namespace Constructions

namespace Nameless

open Relation

/-! ## 1. Contractions at the head -/

/-- The redex at the end of the spine of applications is contracted. -/
inductive Head : Nameless → Nameless → Prop
  | beta (A e a : Nameless) : Head (app (lam A e) a) (e.inst a)
  | app {f f' : Nameless} (a : Nameless) (h : Head f f') : Head (app f a) (app f' a)

/-- Contractions at the head in turn. -/
abbrev Heads : Nameless → Nameless → Prop := ReflTransGen Head

theorem Head.step {e f : Nameless} (h : Head e f) : Step e f := by
  induction h with
  | beta A e a => exact .beta A e a
  | app a _ ih => exact .appFun a ih

theorem Head.ne_lam {e f : Nameless} (h : Head e f) : ∀ A b, e ≠ lam A b := by
  intro A b heq
  subst heq
  cases h

theorem Head.rename {e f : Nameless} (h : Head e f) (ξ : Nat → Nat) :
    Head (e.rename ξ) (f.rename ξ) := by
  induction h with
  | beta A e a =>
    rw [rename_inst]
    exact .beta _ _ _
  | app a _ ih => exact .app _ ih

theorem Head.subst {e f : Nameless} (h : Head e f) (σ : Nat → Nameless) :
    Head (e.subst σ) (f.subst σ) := by
  induction h with
  | beta A e a =>
    rw [subst_inst]
    exact .beta _ _ _
  | app a _ ih => exact .app _ ih

theorem Heads.steps {e f : Nameless} (h : Heads e f) : Steps e f :=
  ReflTransGen.mono (fun _ _ => Head.step) _ _ h

theorem Heads.app {f f' : Nameless} (h : Heads f f') (a : Nameless) :
    Heads (Nameless.app f a) (Nameless.app f' a) :=
  h.lift (Nameless.app · a) fun _ _ => .app a

theorem Heads.rename {e f : Nameless} (h : Heads e f) (ξ : Nat → Nat) :
    Heads (e.rename ξ) (f.rename ξ) :=
  h.lift (Nameless.rename ξ) fun _ _ hs => hs.rename ξ

theorem Heads.subst {e f : Nameless} (h : Heads e f) (σ : Nat → Nameless) :
    Heads (e.subst σ) (f.subst σ) :=
  h.lift (Nameless.subst σ) fun _ _ hs => hs.subst σ

/-! ## 2. Standard reductions -/

/-- A reduction that first contracts at the head and then, in the same way, in the parts. -/
inductive Std : Nameless → Nameless → Prop
  | heads {e f : Nameless} (h : Heads e f) : Std e f
  | lam {e A A' b b' : Nameless} (h : Heads e (lam A b)) (hA : Std A A') (hb : Std b b') :
      Std e (lam A' b')
  | pi {e A A' B B' : Nameless} (h : Heads e (pi A B)) (hA : Std A A') (hB : Std B B') :
      Std e (pi A' B')
  | app {e f f' a a' : Nameless} (h : Heads e (app f a)) (hf : Std f f') (ha : Std a a') :
      Std e (app f' a')

theorem Std.refl (e : Nameless) : Std e e := .heads .refl

/-- Contractions at the head may be put in front. -/
theorem Std.head {e f g : Nameless} (h : Heads e f) (hs : Std f g) : Std e g := by
  cases hs with
  | heads h' => exact .heads (h.trans h')
  | lam h' hA hb => exact .lam (h.trans h') hA hb
  | pi h' hA hB => exact .pi (h.trans h') hA hB
  | app h' hf ha => exact .app (h.trans h') hf ha

theorem Std.steps {e f : Nameless} (h : Std e f) : Steps e f := by
  induction h with
  | heads h => exact h.steps
  | lam h _ _ ihA ihb => exact h.steps.trans (ihA.lam ihb)
  | pi h _ _ ihA ihB => exact h.steps.trans (ihA.pi ihB)
  | app h _ _ ihf iha => exact h.steps.trans (ihf.app iha)

theorem Std.of_lam {e A' b' : Nameless} (h : Std e (Nameless.lam A' b')) :
    ∃ A b, Heads e (Nameless.lam A b) ∧ Std A A' ∧ Std b b' := by
  cases h with
  | heads h => exact ⟨A', b', h, .refl A', .refl b'⟩
  | lam h hA hb => exact ⟨_, _, h, hA, hb⟩

theorem Std.of_pi {e A' B' : Nameless} (h : Std e (Nameless.pi A' B')) :
    ∃ A B, Heads e (Nameless.pi A B) ∧ Std A A' ∧ Std B B' := by
  cases h with
  | heads h => exact ⟨A', B', h, .refl A', .refl B'⟩
  | pi h hA hB => exact ⟨_, _, h, hA, hB⟩

theorem Std.of_app {e f' a' : Nameless} (h : Std e (Nameless.app f' a')) :
    ∃ f a, Heads e (Nameless.app f a) ∧ Std f f' ∧ Std a a' := by
  cases h with
  | heads h => exact ⟨f', a', h, .refl f', .refl a'⟩
  | app h hf ha => exact ⟨_, _, h, hf, ha⟩

theorem Std.rename {e f : Nameless} (h : Std e f) (ξ : Nat → Nat) :
    Std (e.rename ξ) (f.rename ξ) := by
  induction h generalizing ξ with
  | heads h => exact .heads (h.rename ξ)
  | lam h _ _ ihA ihb => exact .lam (h.rename ξ) (ihA ξ) (ihb (upRen ξ))
  | pi h _ _ ihA ihB => exact .pi (h.rename ξ) (ihA ξ) (ihB (upRen ξ))
  | app h _ _ ihf iha => exact .app (h.rename ξ) (ihf ξ) (iha ξ)

theorem Std.up {σ τ : Nat → Nameless} (h : ∀ n, Std (σ n) (τ n)) (n : Nat) :
    Std (Nameless.up σ n) (Nameless.up τ n) := by
  cases n with
  | zero => exact .refl _
  | succ n => exact (h n).rename Nat.succ

/-- Reducing in what is put into a tree. -/
theorem Std.subst_left {σ τ : Nat → Nameless} (h : ∀ n, Std (σ n) (τ n)) (e : Nameless) :
    Std (e.subst σ) (e.subst τ) := by
  induction e generalizing σ τ with
  | idx n => exact h n
  | lam A b ihA ihb => exact .lam .refl (ihA h) (ihb (Std.up h))
  | pi A B ihA ihB => exact .pi .refl (ihA h) (ihB (Std.up h))
  | app f a ihf iha => exact .app .refl (ihf h) (iha h)
  | _ => exact .refl _

/-- Reducing in a tree and in what is put into it. -/
theorem Std.subst {e f : Nameless} (h : Std e f) {σ τ : Nat → Nameless}
    (hσ : ∀ n, Std (σ n) (τ n)) : Std (e.subst σ) (f.subst τ) := by
  induction h generalizing σ τ with
  | @heads e f h => exact Std.head (h.subst σ) (Std.subst_left hσ f)
  | lam h _ _ ihA ihb => exact .lam (h.subst σ) (ihA hσ) (ihb (Std.up hσ))
  | pi h _ _ ihA ihB => exact .pi (h.subst σ) (ihA hσ) (ihB (Std.up hσ))
  | app h _ _ ihf iha => exact .app (h.subst σ) (ihf hσ) (iha hσ)

theorem Std.inst {e f a b : Nameless} (h : Std e f) (ha : Std a b) : Std (e.inst a) (f.inst b) := by
  refine h.subst fun n => ?_
  cases n with
  | zero => exact ha
  | succ n => exact .refl _

/-- A contraction after a standard reduction is moved to where it belongs. -/
theorem Std.step {e f g : Nameless} (h : Std e f) (hs : Step f g) : Std e g := by
  induction hs generalizing e with
  | beta A b a =>
    obtain ⟨f₀, a₀, hf₀, hf, ha⟩ := h.of_app
    obtain ⟨A₀, b₀, hb₀, _, hb⟩ := hf.of_lam
    -- what became a λ did so at the head, so the redex stands at the head of `e`
    have hhead : Heads e (b₀.inst a₀) := (hf₀.trans (hb₀.app a₀)).tail (.beta A₀ b₀ a₀)
    exact (hb.inst ha).head hhead
  | lamType b _ ih =>
    obtain ⟨A₀, b₀, h₀, hA, hb⟩ := h.of_lam
    exact .lam h₀ (ih hA) hb
  | lamBody A _ ih =>
    obtain ⟨A₀, b₀, h₀, hA, hb⟩ := h.of_lam
    exact .lam h₀ hA (ih hb)
  | piType B _ ih =>
    obtain ⟨A₀, B₀, h₀, hA, hB⟩ := h.of_pi
    exact .pi h₀ (ih hA) hB
  | piBody A _ ih =>
    obtain ⟨A₀, B₀, h₀, hA, hB⟩ := h.of_pi
    exact .pi h₀ hA (ih hB)
  | appFun a _ ih =>
    obtain ⟨f₀, a₀, h₀, hf, ha⟩ := h.of_app
    exact .app h₀ (ih hf) ha
  | appArg f _ ih =>
    obtain ⟨f₀, a₀, h₀, hf, ha⟩ := h.of_app
    exact .app h₀ hf (ih ha)

/-- **Every reduction can be made standard.** -/
theorem std_of_steps {e f : Nameless} (h : Steps e f) : Std e f := by
  induction h with
  | refl => exact .refl e
  | tail _ hs ih => exact ih.step hs

/-! ## 3. Trees with nothing to contract at the head -/

/-- The spine of applications does not end in a λ. -/
def Neutral : Nameless → Prop
  | app f _ => f.Neutral
  | lam _ _ => False
  | _ => True

/-- Nothing is left to contract at the head. -/
def Headed (e : Nameless) : Prop := e.Neutral ∨ ∃ A b, e = lam A b

theorem Neutral.ne_lam {e : Nameless} (h : e.Neutral) : ∀ A b, e ≠ lam A b := by
  intro A b heq
  subst heq
  exact h

theorem Neutral.step {e f : Nameless} (h : e.Neutral) (hs : Step e f) : f.Neutral := by
  induction hs with
  | beta | lamType | lamBody => exact h.elim
  | piType | piBody => trivial
  | appFun a _ ih => exact ih h
  | appArg f _ _ => exact h

theorem Neutral.steps {e f : Nameless} (h : e.Neutral) (hs : Steps e f) : f.Neutral := by
  induction hs with
  | refl => exact h
  | tail _ hs ih => exact ih.step hs

theorem Headed.step {e f : Nameless} (h : e.Headed) (hs : Step e f) : f.Headed := by
  rcases h with h | ⟨A, b, rfl⟩
  · exact .inl (h.step hs)
  · cases hs with
    | lamType _ _ => exact .inr ⟨_, b, rfl⟩
    | lamBody _ _ => exact .inr ⟨A, _, rfl⟩

theorem Headed.steps {e f : Nameless} (h : e.Headed) (hs : Steps e f) : f.Headed := by
  induction hs with
  | refl => exact h
  | tail _ hs ih => exact ih.step hs

theorem Neutral.not_head {e f : Nameless} (h : e.Neutral) : ¬ Head e f := by
  intro hs
  induction hs with
  | beta => exact h
  | app a _ ih => exact ih h

theorem Headed.eq_of_heads {e f : Nameless} (h : e.Headed) (hs : Heads e f) : f = e := by
  refine (reflTransGen_iff_eq fun g hg => ?_).mp hs
  rcases h with h | ⟨A, b, rfl⟩
  · exact h.not_head hg
  · cases hg

theorem Normal.headed {e : Nameless} (h : e.Normal) : e.Headed := by
  induction e with
  | lam A b => exact .inr ⟨A, b, rfl⟩
  | app f a ihf =>
    rcases ihf fun g hg => h _ (.appFun a hg) with hf | ⟨A, b, rfl⟩
    · exact .inl hf
    · exact (h _ (.beta A b a)).elim
  | _ => exact .inl trivial

/-- A standard reduction to a neutral tree begins with contractions to one. -/
theorem Std.heads_neutral {e f : Nameless} (h : Std e f) (hf : f.Neutral) :
    ∃ g, Heads e g ∧ g.Neutral := by
  induction h with
  | heads h => exact ⟨_, h, hf⟩
  | lam => exact hf.elim
  | pi h => exact ⟨_, h, trivial⟩
  | @app e f f' a a' h _ _ ih =>
    obtain ⟨g, hg, hn⟩ := ih hf
    exact ⟨.app g a, h.trans (hg.app a), hn⟩

theorem Std.heads_headed {e f : Nameless} (h : Std e f) (hf : f.Headed) :
    ∃ g, Heads e g ∧ g.Headed := by
  rcases hf with hf | ⟨A, b, rfl⟩
  · obtain ⟨g, hg, hn⟩ := h.heads_neutral hf
    exact ⟨g, hg, .inl hn⟩
  · obtain ⟨A₀, b₀, h₀, _, _⟩ := h.of_lam
    exact ⟨_, h₀, .inr ⟨A₀, b₀, rfl⟩⟩

/-! ## 4. Passes and the head -/

/-- A pass does what the contraction at the head does. -/
theorem Head.steps_pass {e f : Nameless} (h : Head e f) : Steps f e.pass := by
  induction h with
  | beta A e a => exact .refl
  | app a h ih =>
    rw [pass_app h.ne_lam]
    exact ih.app (Nameless.steps_pass a)

/-- Contractions made at once leave one contraction at the head to be made, or none. -/
theorem Head.commute_par {e e' f : Nameless} (h : Head e e') (hp : Par e f) :
    ∃ f', ReflGen Head f f' ∧ Par e' f' := by
  induction h generalizing f with
  | beta A b a =>
    cases hp with
    | refl => exact ⟨_, .single (.beta A b a), .refl _⟩
    | app hf ha =>
      obtain ⟨A', b', rfl, _, hb⟩ := hf.of_lam
      exact ⟨_, .single (.beta A' b' _), hb.inst ha⟩
    | beta _ hb ha => exact ⟨_, .refl, hb.inst ha⟩
  | @app g g' a h ih =>
    cases hp with
    | refl => exact ⟨_, .single (.app a h), .refl _⟩
    | @app _ g₁ _ a₁ hg ha =>
      obtain ⟨g₁', hred, hpar⟩ := ih hg
      refine ⟨.app g₁' a₁, ?_, .app hpar ha⟩
      cases hred with
      | refl => exact .refl
      | single hs => exact .single (.app a₁ hs)
    | beta A _ _ => exact (h.ne_lam A _ rfl).elim

/-- Other contractions never multiply those to be made at the head. -/
theorem Head.commute {e e' f : Nameless} (h : Head e e') (hs : Steps e f) :
    ∃ f', ReflGen Head f f' ∧ Steps e' f' := by
  induction hs with
  | refl => exact ⟨e', .single h, .refl⟩
  | @tail f g _ hs ih =>
    obtain ⟨f', hred, hsteps⟩ := ih
    cases hred with
    | refl => exact ⟨g, .refl, hsteps.tail hs⟩
    | single hh =>
      obtain ⟨g', hred, hpar⟩ := hh.commute_par hs.par
      exact ⟨g', hred, hsteps.trans hpar.steps⟩

/-- **Passes finish with the head when head contractions do**, also after other contractions. -/
theorem exists_headed_pass {e g : Nameless} (h : Heads e g) (hg : g.Headed) {f : Nameless}
    (hs : Steps e f) : ∃ k, (pass^[k] f).Headed := by
  -- by induction on the head contractions of `e`: those of `f` are no more, and a pass makes one
  induction h using ReflTransGen.head_induction_on generalizing f with
  | refl => exact ⟨0, hg.steps hs⟩
  | head hh _ ih =>
    obtain ⟨f', hred, hsteps⟩ := hh.commute hs
    cases hred with
    | refl => exact ih hsteps
    | single hf =>
      obtain ⟨k, hk⟩ := ih (hsteps.trans hf.steps_pass)
      exact ⟨k + 1, hk⟩

/-! ## 5. Passes find normal forms -/

theorem Normal.pass_eq {e : Nameless} (h : e.Normal) : e.pass = e := h.eq_of_steps (steps_pass e)

theorem iterate_pass_lam (k : Nat) (A b : Nameless) :
    pass^[k] (lam A b) = lam (pass^[k] A) (pass^[k] b) := by
  induction k generalizing A b with
  | zero => rfl
  | succ k ih => exact ih A.pass b.pass

theorem iterate_pass_pi (k : Nat) (A B : Nameless) :
    pass^[k] (pi A B) = pi (pass^[k] A) (pass^[k] B) := by
  induction k generalizing A B with
  | zero => rfl
  | succ k ih => exact ih A.pass B.pass

theorem iterate_pass_app (k : Nat) {f : Nameless} (hf : f.Neutral) (a : Nameless) :
    pass^[k] (app f a) = app (pass^[k] f) (pass^[k] a) := by
  induction k generalizing f a with
  | zero => rfl
  | succ k ih =>
    rw [Function.iterate_succ_apply, pass_app hf.ne_lam]
    exact ih (hf.steps (steps_pass f)) a.pass

/-- Two trees that passes take to normal forms get there in one number of passes. -/
theorem exists_iterate_pass_both {e f m n : Nameless} (hm : m.Normal) (hn : n.Normal)
    (he : ∃ k, pass^[k] e = m) (hf : ∃ k, pass^[k] f = n) :
    ∃ k, pass^[k] e = m ∧ pass^[k] f = n := by
  obtain ⟨i, rfl⟩ := he
  obtain ⟨j, rfl⟩ := hf
  refine ⟨i + j, ?_, ?_⟩
  · rw [Nat.add_comm, Function.iterate_add_apply, Function.iterate_fixed hm.pass_eq]
  · rw [Function.iterate_add_apply, Function.iterate_fixed hn.pass_eq]

/-- Every reduct of a tree reduces to the normal form that the tree has. -/
theorem Steps.to_normal {e f n : Nameless} (h : Steps e n) (hn : n.Normal) (hf : Steps e f) :
    Steps f n := by
  obtain ⟨g, hng, hfg⟩ := h.confluent hf
  rwa [hn.eq_of_steps hng] at hfg

/-- Only trees with nothing to contract at the head have to be looked at. -/
theorem exists_iterate_pass_of_headed {e n : Nameless} (hn : n.Normal) (h : Steps e n)
    (hheaded : ∀ g, g.Headed → Std g n → ∃ k, pass^[k] g = n) : ∃ k, pass^[k] e = n := by
  obtain ⟨g, hg, hh⟩ := (std_of_steps h).heads_headed hn.headed
  obtain ⟨i, hi⟩ := exists_headed_pass hg hh .refl
  have hstd : Std (pass^[i] e) n := std_of_steps (h.to_normal hn (steps_iterate_pass i e))
  obtain ⟨j, hj⟩ := hheaded _ hi hstd
  exact ⟨j + i, by rw [Function.iterate_add_apply, hj]⟩

/-- **Passes reach every normal form that a tree has.** -/
theorem exists_iterate_pass {e n : Nameless} (hn : n.Normal) (h : Steps e n) :
    ∃ k, pass^[k] e = n := by
  -- by the normal form: with the head finished, passes work in the parts side by side
  induction n generalizing e with
  | lam A' b' ihA ihb =>
    refine exists_iterate_pass_of_headed hn h fun g hg hstd => ?_
    obtain ⟨A, b, hheads, hA, hb⟩ := hstd.of_lam
    obtain rfl := hg.eq_of_heads hheads
    have hA' : A'.Normal := fun _ hs => hn _ (.lamType b' hs)
    have hb' : b'.Normal := fun _ hs => hn _ (.lamBody A' hs)
    obtain ⟨k, hkA, hkb⟩ :=
      exists_iterate_pass_both hA' hb' (ihA hA' hA.steps) (ihb hb' hb.steps)
    exact ⟨k, by rw [iterate_pass_lam, hkA, hkb]⟩
  | pi A' B' ihA ihB =>
    refine exists_iterate_pass_of_headed hn h fun g hg hstd => ?_
    obtain ⟨A, B, hheads, hA, hB⟩ := hstd.of_pi
    obtain rfl := hg.eq_of_heads hheads
    have hA' : A'.Normal := fun _ hs => hn _ (.piType B' hs)
    have hB' : B'.Normal := fun _ hs => hn _ (.piBody A' hs)
    obtain ⟨k, hkA, hkB⟩ :=
      exists_iterate_pass_both hA' hB' (ihA hA' hA.steps) (ihB hB' hB.steps)
    exact ⟨k, by rw [iterate_pass_pi, hkA, hkB]⟩
  | app f' a' ihf iha =>
    refine exists_iterate_pass_of_headed hn h fun g hg hstd => ?_
    obtain ⟨f, a, hheads, hf, ha⟩ := hstd.of_app
    obtain rfl := hg.eq_of_heads hheads
    have hf' : f'.Normal := fun _ hs => hn _ (.appFun a' hs)
    have ha' : a'.Normal := fun _ hs => hn _ (.appArg f' hs)
    obtain ⟨k, hkf, hka⟩ :=
      exists_iterate_pass_both hf' ha' (ihf hf' hf.steps) (iha ha' ha.steps)
    rcases hg with hneutral | ⟨_, _, heq⟩
    · exact ⟨k, by rw [iterate_pass_app k (f := f) hneutral, hkf, hka]⟩
    · cases heq
  | _ =>
    refine exists_iterate_pass_of_headed hn h fun g hg hstd => ?_
    cases hstd with
    | heads hheads => exact ⟨0, (hg.eq_of_heads hheads).symm⟩

end Nameless

end Constructions
