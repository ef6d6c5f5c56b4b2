import Constructions.Proofs.Nameless.Reduction

/-!
# Trees that passes leave alone

A pass changes every redex that no other redex contains, with one exception: `(λT . 0 0) (λT . 0 0)`
contracts to itself.

* `eq_of_inst_eq_redex` -- **a redex that contracts to itself is this one.**
* `Quiet` -- every redex of a tree lies inside some `(λT . 0 0) (λU . 0 0)`; `quiet_of_pass` -- a
  tree that passes leave alone is quiet.
* `Quiet.step` -- a contraction keeps a tree quiet and never takes its last redex away; so a quiet
  tree that reduces to a normal form is normal (`Quiet.normal`).
-/

namespace Constructions

namespace Nameless

/-! ## 1. Occurrences and sizes -/

/-- The index `k`, counted from outside of the tree, occurs in it. -/
def Occurs : Nat → Nameless → Prop
  | k, idx n => n = k
  | k, lam A e => A.Occurs k ∨ e.Occurs (k + 1)
  | k, pi A B => A.Occurs k ∨ B.Occurs (k + 1)
  | k, app f a => f.Occurs k ∨ a.Occurs k
  | _, _ => False

theorem not_occurs_rename {ξ : Nat → Nat} {k : Nat} (hξ : ∀ n, ξ n ≠ k) (e : Nameless) :
    ¬ (e.rename ξ).Occurs k := by
  have hup {ξ : Nat → Nat} {k : Nat} (hξ : ∀ n, ξ n ≠ k) (n : Nat) : upRen ξ n ≠ k + 1 := by
    cases n with
    | zero => exact Nat.noConfusion
    | succ n => exact fun h => hξ n (Nat.succ.inj h)
  induction e generalizing ξ k with
  | idx n => exact hξ n
  | lam A e ihA ihe => exact not_or.mpr ⟨ihA hξ, ihe (hup hξ)⟩
  | pi A B ihA ihB => exact not_or.mpr ⟨ihA hξ, ihB (hup hξ)⟩
  | app f a ihf iha => exact not_or.mpr ⟨ihf hξ, iha hξ⟩
  | _ => exact id

/-- A lift leaves the indices below it unused. -/
theorem not_occurs_liftN {j k : Nat} (h : j < k) (e : Nameless) : ¬ (e.liftN k).Occurs j :=
  not_occurs_rename (fun n => by omega) e

theorem size_pos (e : Nameless) : 0 < e.size := by
  cases e <;> exact Nat.succ_pos _

theorem size_le_subst (σ : Nat → Nameless) (e : Nameless) : e.size ≤ (e.subst σ).size := by
  induction e generalizing σ with
  | idx n => exact size_pos (σ n)
  | lam A e ihA ihe | pi A e ihA ihe =>
    have hA := ihA σ
    have he := ihe (up σ)
    simp only [subst, size]
    omega
  | app f a ihf iha =>
    have hf := ihf σ
    have ha := iha σ
    simp only [subst, size]
    omega
  | _ => exact Nat.le_refl _

/-- What is put for an index that occurs is counted. -/
theorem size_subst_of_occurs {σ : Nat → Nameless} {k : Nat} {e : Nameless} (h : e.Occurs k) :
    (σ k).size + e.size ≤ (e.subst σ).size + 1 := by
  have hup (σ : Nat → Nameless) (k : Nat) : (up σ (k + 1)).size = (σ k).size := size_rename _ _
  induction e generalizing σ k with
  | idx n =>
    cases h
    exact Nat.le_refl _
  | lam A e ihA ihe | pi A e ihA ihe =>
    have hA := size_le_subst σ A
    have he := size_le_subst (up σ) e
    simp only [subst, size]
    rcases h with h | h
    · have hle := ihA (σ := σ) h
      omega
    · have hle := ihe (σ := up σ) h
      rw [hup] at hle
      omega
  | app f a ihf iha =>
    have hf := size_le_subst σ f
    have ha := size_le_subst σ a
    simp only [subst, size]
    rcases h with h | h
    · have hle := ihf (σ := σ) h
      omega
    · have hle := iha (σ := σ) h
      omega
  | _ => exact h.elim

/-- An index that does not occur is only closed, and can be opened again. -/
theorem rename_subst_plug {k : Nat} {e : Nameless} (h : ¬ e.Occurs k) (a : Nameless) :
    (e.subst (plug a k k)).rename (gap 1 k) = e := by
  induction e generalizing k with
  | idx n =>
    have hn : n ≠ k := h
    simp only [subst, plug, if_neg hn]
    split
    · have hgap : gap 1 k (n - 1) = n := by
        rw [gap, if_neg (by omega)]
        omega
      exact congrArg idx hgap
    · have hgap : gap 1 k n = n := by
        rw [gap, if_pos (by omega)]
      exact congrArg idx hgap
  | lam A e ihA ihe | pi A e ihA ihe =>
    obtain ⟨hA, he⟩ := not_or.mp h
    simp only [subst, rename, up_plug, upRen_gap, ihA hA, ihe he]
  | app f b ihf ihb =>
    obtain ⟨hf, hb⟩ := not_or.mp h
    simp only [subst, rename, ihf hf, ihb hb]
  | _ => rfl

/-! ## 2. Redexes that contract to themselves -/

/-- Only the variable and the constant function have an instance that is the argument. -/
theorem eq_of_inst_eq_arg {e a : Nameless} (h : e.inst a = a) : e = idx 0 ∨ e = a.lift := by
  by_cases ho : e.Occurs 0
  · have hsize := size_subst_of_occurs (σ := single a) ho
    rw [← inst, h] at hsize
    change a.size + e.size ≤ a.size + 1 at hsize
    left
    cases e with
    | idx n => exact congrArg idx ho
    | lam A e | pi A e | app A e =>
      have := size_pos A
      simp only [size] at hsize
      omega
    | _ => exact ho.elim
  · right
    have hopen := rename_subst_plug ho a
    rw [plug_zero, ← inst, h] at hopen
    exact hopen.symm

/-- Below at least one binder, no instance of the body of a λ is a redex of this λ. -/
theorem subst_plug_ne_redex {k : Nat} (hk : 0 < k) (a T e d : Nameless) :
    e.subst (plug a k k) ≠ app (lam T e) d := by
  intro h
  -- what is put in was lifted, so it cannot refer to the binders it now stands under
  have hlift {b : Nameless} (hb : a.liftN k = b) (ho : b.Occurs (k - 1)) : False := by
    subst hb
    exact not_occurs_liftN (by omega) a ho
  have hk' : k = k - 1 + 1 := by omega
  cases e with
  | idx n =>
    simp only [subst, plug] at h
    split at h
    · rename_i hn
      exact hlift h (Or.inl (Or.inr (hn.trans hk')))
    · split at h <;> cases h
  | app f b =>
    injection h with hf hb
    cases f with
    | idx n =>
      simp only [subst, plug] at hf
      split at hf
      · rename_i hn
        exact hlift hf (Or.inr (Or.inl (hn.trans hk')))
      · split at hf <;> cases hf
    | lam U c =>
      injection hf with hU hc
      rw [up_plug] at hc
      exact subst_plug_ne_redex (Nat.succ_pos k) a U c b hc
    | _ => cases hf
  | _ => cases h
termination_by e.size
decreasing_by
  subst_vars
  simp only [size]
  omega

/-- The tree `0 0`. -/
def selfApp : Nameless := app (idx 0) (idx 0)

/-- **A redex that contracts to itself is `(λT . 0 0) (λT . 0 0)`.** -/
theorem eq_of_inst_eq_redex {T e a : Nameless} (h : e.inst a = app (lam T e) a) :
    e = selfApp ∧ a = lam T selfApp := by
  cases e with
  | idx n =>
    cases n with
    | zero =>
      have hsize := congrArg size h
      simp only [inst, subst, single, size] at hsize
      omega
    | succ n => cases h
  | app f b =>
    injection h with hf hb
    cases f with
    | idx n =>
      cases n with
      | zero =>
        change a = lam T (app (idx 0) b) at hf
        rcases eq_of_inst_eq_arg hb with rfl | hlift
        · exact ⟨rfl, hf⟩
        · have hsize := congrArg size hf
          rw [hlift] at hsize
          simp only [lift, size, size_rename] at hsize
          omega
      | succ n => cases hf
    | lam U c =>
      injection hf with hU hc
      rw [← plug_zero, up_plug] at hc
      exact (subst_plug_ne_redex Nat.one_pos a U c b hc).elim
    | _ => cases hf
  | _ => cases h

/-! ## 3. Quiet trees -/

/-- Every redex lies inside some `(λT . 0 0) (λU . 0 0)`. -/
def Quiet : Nameless → Prop
  | lam A e => A.Quiet ∧ e.Quiet
  | pi A B => A.Quiet ∧ B.Quiet
  | app (lam _ e) a => e = selfApp ∧ ∃ U, a = lam U selfApp
  | app f a => f.Quiet ∧ a.Quiet
  | _ => True

theorem quiet_app {f : Nameless} (hf : ∀ A e, f ≠ lam A e) (a : Nameless) :
    (app f a).Quiet ↔ f.Quiet ∧ a.Quiet := by
  cases f with
  | lam A e => exact absurd rfl (hf A e)
  | _ => exact Iff.rfl

/-- **A tree that passes leave alone is quiet.** -/
theorem quiet_of_pass {e : Nameless} (h : e.pass = e) : e.Quiet := by
  fun_induction pass e with
  | case1 A e ihA ihe =>
    injection h with hA he
    exact ⟨ihA hA, ihe he⟩
  | case2 A B ihA ihB =>
    injection h with hA hB
    exact ⟨ihA hA, ihB hB⟩
  | case3 A e a =>
    obtain ⟨he, ha⟩ := eq_of_inst_eq_redex h
    exact ⟨he, A, ha⟩
  | case4 f a hf ihf iha =>
    injection h with hf' ha
    exact (quiet_app hf a).mpr ⟨ihf hf', iha ha⟩
  | case5 e h₁ h₂ h₃ h₄ =>
    cases e with
    | lam A e => exact (h₁ A e rfl).elim
    | pi A B => exact (h₂ A B rfl).elim
    | app f a => exact (h₄ f a rfl).elim
    | _ => trivial

theorem not_step_selfApp {e : Nameless} : ¬ Step selfApp e := by
  intro h
  cases h with
  | appFun _ h => cases h
  | appArg _ h => cases h

/-- A step of `λU . 0 0` is one of `U`. -/
theorem Step.of_lam_selfApp {U e : Nameless} (h : Step (lam U selfApp) e) :
    ∃ U', e = lam U' selfApp := by
  cases h with
  | lamType _ h => exact ⟨_, rfl⟩
  | lamBody _ h => exact (not_step_selfApp h).elim

/-- A quiet tree that is no λ does not become one. -/
theorem Quiet.step_ne_lam {e f : Nameless} (he : e.Quiet) (hne : ∀ A b, e ≠ lam A b)
    (h : Step e f) : ∀ A b, f ≠ lam A b := by
  intro A b hf
  subst hf
  generalize hg : lam A b = g at h
  cases h with
  | beta T c a =>
    obtain ⟨rfl, U, rfl⟩ := he
    cases hg
  | lamType | lamBody => exact hne _ _ rfl
  | _ => cases hg

/-- **A contraction keeps a tree quiet and leaves something to contract.** -/
theorem Quiet.step {e f : Nameless} (he : e.Quiet) (h : Step e f) : f.Quiet ∧ ∃ g, Step f g := by
  induction h with
  | beta T c a =>
    obtain ⟨rfl, U, rfl⟩ := he
    exact ⟨⟨rfl, U, rfl⟩, _, .beta U selfApp (lam U selfApp)⟩
  | lamType e _ ih =>
    obtain ⟨hq, g, hg⟩ := ih he.1
    exact ⟨⟨hq, he.2⟩, _, .lamType e hg⟩
  | lamBody A _ ih =>
    obtain ⟨hq, g, hg⟩ := ih he.2
    exact ⟨⟨he.1, hq⟩, _, .lamBody A hg⟩
  | piType B _ ih =>
    obtain ⟨hq, g, hg⟩ := ih he.1
    exact ⟨⟨hq, he.2⟩, _, .piType B hg⟩
  | piBody A _ ih =>
    obtain ⟨hq, g, hg⟩ := ih he.2
    exact ⟨⟨he.1, hq⟩, _, .piBody A hg⟩
  | @appFun k k' a hk ih =>
    by_cases hlam : ∃ T c, k = lam T c
    · obtain ⟨T, c, rfl⟩ := hlam
      obtain ⟨rfl, U, rfl⟩ := he
      obtain ⟨T', rfl⟩ := hk.of_lam_selfApp
      exact ⟨⟨rfl, U, rfl⟩, _, .beta T' selfApp (lam U selfApp)⟩
    · have hne : ∀ T c, k ≠ lam T c := fun T c heq => hlam ⟨T, c, heq⟩
      obtain ⟨hq, ha⟩ := (quiet_app hne a).mp he
      obtain ⟨hq', g, hg⟩ := ih hq
      exact ⟨(quiet_app (hq.step_ne_lam hne hk) a).mpr ⟨hq', ha⟩, _, .appFun a hg⟩
  | @appArg k a a' ha ih =>
    by_cases hlam : ∃ T c, k = lam T c
    · obtain ⟨T, c, rfl⟩ := hlam
      obtain ⟨rfl, U, rfl⟩ := he
      obtain ⟨U', rfl⟩ := ha.of_lam_selfApp
      exact ⟨⟨rfl, U', rfl⟩, _, .beta T selfApp (lam U' selfApp)⟩
    · have hne : ∀ T c, k ≠ lam T c := fun T c heq => hlam ⟨T, c, heq⟩
      obtain ⟨hq, hqa⟩ := (quiet_app hne a).mp he
      obtain ⟨hqa', g, hg⟩ := ih hqa
      exact ⟨(quiet_app hne a').mpr ⟨hq, hqa'⟩, _, .appArg k hg⟩

theorem Quiet.steps {e f : Nameless} (he : e.Quiet) (h : Steps e f) : f.Quiet := by
  induction h with
  | refl => exact he
  | tail _ hs ih => exact (ih.step hs).1

/-- **A quiet tree that reduces to a normal form is normal.** -/
theorem Quiet.normal {e f : Nameless} (he : e.Quiet) (h : Steps e f) (hf : f.Normal) :
    e.Normal := by
  cases h with
  | refl => exact hf
  | tail hs hlast =>
    obtain ⟨g, hg⟩ := ((he.steps hs).step hlast).2
    exact (hf g hg).elim

end Nameless

end Constructions
