import Mathlib.Logic.Function.Iterate
import Constructions.Proofs.Nameless.Reduction

/-!
# Names and indices agree

A context is asked by name, also for a bound variable, so the name that an index carries has to be
that of its binder.

* `Expr.Coherent σ e` -- under binders `σ`, innermost first, every index of `e` points at a binder
  that has the name the index carries.  With no binder around it, `e` is closed and coherent.
* `Expr.Unshadowed σ e` -- no free occurrence in `e` stands below a binder of its name.
* `Expr.Built` -- what the constructors of terms build.

Main statements: what is built is closed, coherent and unshadowed (`Built.coherent`,
`Built.unshadowed`), passes keep an expression coherent (`Coherent.pass`), and reduction adds no
free names (`Nameless.mem_names_of_steps`).
-/

namespace Constructions

/-! ## 1. Free names -/

/-- The names that occur free, in reading order. -/
def Expr.freeNames : Expr → List String
  | var (.free x) => [x]
  | lam _ A e => A.freeNames ++ e.freeNames
  | pi _ A B => A.freeNames ++ B.freeNames
  | app f a => f.freeNames ++ a.freeNames
  | _ => []

/-- The names that occur in a tree, in reading order. -/
def Nameless.names : Nameless → List String
  | const x => [x]
  | lam A e => A.names ++ e.names
  | pi A B => A.names ++ B.names
  | app f a => f.names ++ a.names
  | _ => []

theorem Expr.names_erase (e : Expr) : e.erase.names = e.freeNames := by
  induction e with
  | var r =>
    cases r with
    | free x => rfl
    | bound i =>
      rcases Nameless.ofDepth_cases i.depth with ⟨n, hn⟩ | ⟨n, hn⟩ <;>
        simp [erase, hn, Nameless.names, freeNames]
  | lam b A e ihA ihe => simp only [erase, Nameless.names, freeNames, ihA, ihe]
  | pi b A B ihA ihB => simp only [erase, Nameless.names, freeNames, ihA, ihB]
  | app f a ihf iha => simp only [erase, Nameless.names, freeNames, ihf, iha]
  | star => rfl
  | box => rfl
  | unknown => rfl

namespace Nameless

@[simp] theorem names_rename (ξ : Nat → Nat) (e : Nameless) : (e.rename ξ).names = e.names := by
  induction e generalizing ξ with
  | lam A e ihA ihe => simp only [rename, names, ihA, ihe]
  | pi A B ihA ihB => simp only [rename, names, ihA, ihB]
  | app f a ihf iha => simp only [rename, names, ihf, iha]
  | _ => rfl

/-- A substitution brings no names but those of the trees it puts in. -/
theorem mem_names_subst {x : String} {σ : Nat → Nameless} {e : Nameless}
    (h : x ∈ (e.subst σ).names) : x ∈ e.names ∨ ∃ n, x ∈ (σ n).names := by
  have hup {σ : Nat → Nameless} (h : ∃ n, x ∈ (up σ n).names) : ∃ n, x ∈ (σ n).names := by
    obtain ⟨n, hn⟩ := h
    cases n with
    | zero => cases hn
    | succ n => exact ⟨n, by simpa [lift] using hn⟩
  induction e generalizing σ with
  | idx n => exact .inr ⟨n, h⟩
  | lam A e ihA ihe | pi A e ihA ihe =>
    simp only [subst, names, List.mem_append] at h ⊢
    rcases h with h | h
    · exact (ihA h).imp .inl id
    · exact (ihe h).imp .inr hup
  | app f a ihf iha =>
    simp only [subst, names, List.mem_append] at h ⊢
    rcases h with h | h
    · exact (ihf h).imp .inl id
    · exact (iha h).imp .inr id
  | _ => exact .inl h

theorem mem_names_inst {x : String} {e a : Nameless} (h : x ∈ (e.inst a).names) :
    x ∈ e.names ∨ x ∈ a.names := by
  refine (mem_names_subst h).imp id ?_
  rintro ⟨n, hn⟩
  cases n with
  | zero => exact hn
  | succ n => cases hn

theorem mem_names_of_step {x : String} {e f : Nameless} (hs : Step e f) (h : x ∈ f.names) :
    x ∈ e.names := by
  induction hs with
  | beta A e a =>
    simp only [names, List.mem_append]
    exact (mem_names_inst h).imp .inr id
  | lamType _ _ ih | piType _ _ ih | appFun _ _ ih =>
    simp only [names, List.mem_append] at h ⊢
    exact h.imp ih id
  | lamBody _ _ ih | piBody _ _ ih | appArg _ _ ih =>
    simp only [names, List.mem_append] at h ⊢
    exact h.imp id ih

/-- Reduction adds no names. -/
theorem mem_names_of_steps {x : String} {e f : Nameless} (hs : Steps e f) (h : x ∈ f.names) :
    x ∈ e.names := by
  induction hs with
  | refl => exact h
  | tail _ hs ih => exact ih (mem_names_of_step hs h)

end Nameless

namespace Expr

/-! ## 2. Coherence -/

/-- Every index points at one of the binders `σ` around the expression, or at one inside, that has
    the name the index carries. -/
def Coherent : List Binder → Expr → Prop
  | σ, var (.bound i) => 0 ≤ i.depth ∧ σ[i.depth.toNat]? = some (.named i.name)
  | σ, lam b A e => A.Coherent σ ∧ e.Coherent (b :: σ)
  | σ, pi b A B => A.Coherent σ ∧ B.Coherent (b :: σ)
  | σ, app f a => f.Coherent σ ∧ a.Coherent σ
  | _, _ => True

instance Coherent.decidable : (σ : List Binder) → (e : Expr) → Decidable (e.Coherent σ)
  | σ, var (.bound i) =>
    inferInstanceAs (Decidable (0 ≤ i.depth ∧ σ[i.depth.toNat]? = some (.named i.name)))
  | _, var (.free _) => isTrue trivial
  | σ, lam b A e => @instDecidableAnd _ _ (Coherent.decidable σ A) (Coherent.decidable (b :: σ) e)
  | σ, pi b A B => @instDecidableAnd _ _ (Coherent.decidable σ A) (Coherent.decidable (b :: σ) B)
  | σ, app f a => @instDecidableAnd _ _ (Coherent.decidable σ f) (Coherent.decidable σ a)
  | _, star => isTrue trivial
  | _, box => isTrue trivial
  | _, unknown => isTrue trivial

theorem Coherent.below {σ : List Binder} {e : Expr} (h : e.Coherent σ) :
    e.erase.Below σ.length := by
  induction e generalizing σ with
  | var r =>
    cases r with
    | free x => trivial
    | bound i =>
      rw [erase, Nameless.ofDepth_of_nonneg h.1]
      exact (List.getElem?_eq_some_iff.mp h.2).1
  | lam b A e ihA ihe => exact ⟨ihA h.1, ihe h.2⟩
  | pi b A B ihA ihB => exact ⟨ihA h.1, ihB h.2⟩
  | app f a ihf iha => exact ⟨ihf h.1, iha h.2⟩
  | _ => trivial

/-- Binders further out change nothing. -/
theorem Coherent.append {τ ρ : List Binder} {e : Expr} (h : e.Coherent τ) :
    e.Coherent (τ ++ ρ) := by
  induction e generalizing τ with
  | var r =>
    cases r with
    | free x => trivial
    | bound i =>
      have hlt := (List.getElem?_eq_some_iff.mp h.2).1
      exact ⟨h.1, by rw [List.getElem?_append_left hlt, h.2]⟩
  | lam b A e ihA ihe => exact ⟨ihA h.1, ihe h.2⟩
  | pi b A B ihA ihB => exact ⟨ihA h.1, ihB h.2⟩
  | app f a ihf iha => exact ⟨ihf h.1, iha h.2⟩
  | _ => trivial

/-- Moving an expression below further binders keeps it coherent. -/
theorem Coherent.shiftBy {τ ν ρ : List Binder} {e : Expr} (h : e.Coherent (τ ++ ρ)) :
    (e.shiftBy ν.length τ.length).Coherent (τ ++ (ν ++ ρ)) := by
  induction e generalizing τ with
  | var r =>
    cases r with
    | free x => trivial
    | bound i =>
      obtain ⟨d, x⟩ := i
      obtain ⟨hd, hx⟩ := h
      obtain ⟨n, rfl⟩ := Int.eq_ofNat_of_zero_le hd
      simp only [Int.toNat_natCast] at hx
      simp only [Expr.shiftBy, Idx.move]
      split
      · rename_i hle
        refine ⟨by dsimp only; omega, ?_⟩
        have hn : ((n : Int) + (ν.length : Int)).toNat = n + ν.length := by omega
        dsimp only
        rw [hn, List.getElem?_append_right (by omega), List.getElem?_append_right (by omega)]
        rw [List.getElem?_append_right (by omega)] at hx
        rwa [show n + ν.length - τ.length - ν.length = n - τ.length by omega]
      · rename_i hlt
        refine ⟨hd, ?_⟩
        simp only [Int.toNat_natCast]
        rw [List.getElem?_append_left (by omega)] at hx ⊢
        exact hx
  | lam b A e ihA ihe => exact ⟨ihA h.1, ihe (τ := b :: τ) h.2⟩
  | pi b A B ihA ihB => exact ⟨ihA h.1, ihB (τ := b :: τ) h.2⟩
  | app f a ihf iha => exact ⟨ihf h.1, iha h.2⟩
  | _ => trivial

/-- Eliminating a binder keeps an expression coherent. -/
theorem Coherent.substAt {τ ρ : List Binder} {b : Binder} {s e : Expr}
    (h : e.Coherent (τ ++ b :: ρ)) (hs : s.Coherent ρ) :
    (Expr.substAt s τ.length τ.length e).Coherent (τ ++ ρ) := by
  induction e generalizing τ with
  | var r =>
    cases r with
    | free x => trivial
    | bound i =>
      obtain ⟨d, x⟩ := i
      obtain ⟨hd, hx⟩ := h
      obtain ⟨n, rfl⟩ := Int.eq_ofNat_of_zero_le hd
      simp only [Int.toNat_natCast] at hx
      simp only [Expr.substAt, Idx.move]
      split
      · exact hs.shiftBy (τ := []) (ν := τ)
      · rename_i hne
        split
        · rename_i hlt
          refine ⟨by dsimp only; omega, ?_⟩
          have hn : ((n : Int) + -1).toNat = n - 1 := by omega
          dsimp only
          rw [hn, List.getElem?_append_right (by omega)]
          rw [List.getElem?_append_right (by omega),
            show n - τ.length = n - 1 - τ.length + 1 by omega, List.getElem?_cons_succ] at hx
          exact hx
        · rename_i hge
          refine ⟨hd, ?_⟩
          simp only [Int.toNat_natCast]
          rw [List.getElem?_append_left (by omega)] at hx ⊢
          exact hx
  | lam b' A e ihA ihe => exact ⟨ihA h.1, ihe (τ := b' :: τ) h.2⟩
  | pi b' A B ihA ihB => exact ⟨ihA h.1, ihB (τ := b' :: τ) h.2⟩
  | app f a ihf iha => exact ⟨ihf h.1, iha h.2⟩
  | _ => trivial

theorem Coherent.instantiate {ρ : List Binder} {b : Binder} {e a : Expr}
    (h : e.Coherent (b :: ρ)) (ha : a.Coherent ρ) : (e.instantiate a).Coherent ρ :=
  Coherent.substAt (τ := []) h ha

/-- **A pass keeps an expression coherent.** -/
theorem Coherent.pass {σ : List Binder} {e : Expr} (h : e.Coherent σ) : e.pass.Coherent σ := by
  fun_induction Expr.pass e generalizing σ with
  | case1 b A e ihA ihe => exact ⟨ihA h.1, ihe h.2⟩
  | case2 b A B ihA ihB => exact ⟨ihA h.1, ihB h.2⟩
  | case3 b A e a => exact Coherent.instantiate h.1.2 h.2
  | case4 f a hf ihf iha => exact ⟨ihf h.1, iha h.2⟩
  | case5 r => exact h
  | case6 => trivial
  | case7 => trivial
  | case8 => trivial

theorem Coherent.iterate_pass {σ : List Binder} {e : Expr} (h : e.Coherent σ) (n : Nat) :
    (Expr.pass^[n] e).Coherent σ := by
  induction n generalizing e with
  | zero => exact h
  | succ n ih => exact ih h.pass

/-! ## 3. What is built -/

/-- No free occurrence stands below a binder of its name. -/
def Unshadowed : List Binder → Expr → Prop
  | σ, var (.free x) => .named x ∉ σ
  | σ, lam b A e => A.Unshadowed σ ∧ e.Unshadowed (b :: σ)
  | σ, pi b A B => A.Unshadowed σ ∧ B.Unshadowed (b :: σ)
  | σ, app f a => f.Unshadowed σ ∧ a.Unshadowed σ
  | _, _ => True

/-- Only the names among the binders matter. -/
theorem Unshadowed.mono {σ τ : List Binder} (hσ : ∀ x, .named x ∈ τ → .named x ∈ σ) {e : Expr}
    (h : e.Unshadowed σ) : e.Unshadowed τ := by
  have hcons {σ τ : List Binder} (hσ : ∀ x, .named x ∈ τ → .named x ∈ σ) (b : Binder) (x : String)
      (hx : .named x ∈ b :: τ) : .named x ∈ b :: σ := by
    rcases List.mem_cons.mp hx with rfl | hx
    · exact List.mem_cons_self
    · exact List.mem_cons_of_mem b (hσ x hx)
  induction e generalizing σ τ with
  | var r =>
    cases r with
    | free x => exact fun hx => h (hσ x hx)
    | bound i => trivial
  | lam b A e ihA ihe => exact ⟨ihA hσ h.1, ihe (hcons hσ b) h.2⟩
  | pi b A B ihA ihB => exact ⟨ihA hσ h.1, ihB (hcons hσ b) h.2⟩
  | app f a ihf iha => exact ⟨ihf hσ h.1, iha hσ h.2⟩
  | _ => trivial

theorem Unshadowed.shiftBy {σ : List Binder} {e : Expr} (h : e.Unshadowed σ) (k c : Int) :
    (e.shiftBy k c).Unshadowed σ := by
  induction e generalizing σ c with
  | var r =>
    cases r with
    | free x => exact h
    | bound i =>
      simp only [Expr.shiftBy]
      split <;> trivial
  | lam b A e ihA ihe => exact ⟨ihA h.1 c, ihe h.2 (c + 1)⟩
  | pi b A B ihA ihB => exact ⟨ihA h.1 c, ihB h.2 (c + 1)⟩
  | app f a ihf iha => exact ⟨ihf h.1 c, iha h.2 c⟩
  | _ => trivial

theorem captures_iff {b : Binder} {x : String} : b.captures x = true ↔ b = .named x := by
  cases b <;> simp [Binder.captures]

/-- Binding a name keeps an expression coherent. -/
theorem Coherent.index {τ ρ : List Binder} {x : String} {e : Expr} (h : e.Coherent τ) :
    (e.index ⟨τ.length, x⟩).Coherent (τ ++ .named x :: ρ) := by
  have hbody (b : Binder) {τ : List Binder} {e : Expr} (h : e.Coherent (b :: τ))
      (ih : (e.index ⟨(b :: τ).length, x⟩).Coherent (b :: τ ++ .named x :: ρ)) :
      Coherent (b :: (τ ++ .named x :: ρ))
        (if b.captures x then e else e.index (Idx.inc ⟨τ.length, x⟩)) := by
    split
    · exact Coherent.append h
    · exact ih
  induction e generalizing τ with
  | var r =>
    cases r with
    | free y =>
      simp only [Expr.index]
      split
      · rename_i hy
        refine ⟨by dsimp only; omega, ?_⟩
        simp
      · trivial
    | bound i => exact Coherent.append h
  | lam b A e ihA ihe => exact ⟨ihA h.1, hbody b h.2 (ihe h.2)⟩
  | pi b A B ihA ihB => exact ⟨ihA h.1, hbody b h.2 (ihB h.2)⟩
  | app f a ihf iha => exact ⟨ihf h.1, iha h.2⟩
  | _ => trivial

/-- Binding a name leaves no free occurrence of it. -/
theorem Unshadowed.index {τ : List Binder} {i : Idx} {e : Expr} (h : e.Unshadowed τ)
    (hi : .named i.name ∉ τ) : (e.index i).Unshadowed (.named i.name :: τ) := by
  have hbody {b : Binder} {τ : List Binder} {i : Idx} {e : Expr} (h : e.Unshadowed (b :: τ))
      (ih : .named i.name ∉ b :: τ → (e.index i.inc).Unshadowed (.named i.name :: b :: τ))
      (hi : .named i.name ∉ τ) :
      Unshadowed (b :: .named i.name :: τ)
        (if b.captures i.name then e else e.index i.inc) := by
    split
    · -- the body has no free occurrence of the name: its own binder would shadow it
      rename_i hb
      rw [captures_iff] at hb
      subst hb
      refine h.mono fun x hx => ?_
      simpa using hx
    · rename_i hb
      rw [captures_iff] at hb
      have hi' : .named i.name ∉ b :: τ := by
        rintro (_ | ⟨_, hm⟩)
        · exact hb rfl
        · exact hi hm
      refine (ih hi').mono fun x hx => ?_
      simp only [List.mem_cons] at hx ⊢
      exact or_left_comm.mp hx
  induction e generalizing τ i with
  | var r =>
    cases r with
    | free y =>
      simp only [Expr.index]
      split
      · trivial
      · rename_i hy
        rintro (_ | ⟨_, hm⟩)
        · exact hy rfl
        · exact h hm
    | bound j => trivial
  | lam b A e ihA ihe => exact ⟨ihA h.1 hi, hbody h.2 (ihe (i := i.inc) h.2) hi⟩
  | pi b A B ihA ihB => exact ⟨ihA h.1 hi, hbody h.2 (ihB (i := i.inc) h.2) hi⟩
  | app f a ihf iha => exact ⟨ihf h.1 hi, iha h.2 hi⟩
  | _ => trivial

/-- What the constructors of terms build. -/
inductive Built : Expr → Prop
  | name (x : String) : Built (var (.free x))
  | abs (x : String) {A e : Expr} (hA : Built A) (he : Built e) : Built (Expr.abs (.named x) A e)
  | all (x : String) {A B : Expr} (hA : Built A) (hB : Built B) : Built (Expr.all (.named x) A B)
  | arrow {A B : Expr} (hA : Built A) (hB : Built B) : Built (Expr.arrow A B)
  | app {f a : Expr} (hf : Built f) (ha : Built a) : Built (Expr.app f a)
  | star : Built Expr.star
  | box : Built Expr.box

/-- **What is built is closed and coherent.** -/
theorem Built.coherent {e : Expr} (h : Built e) : e.Coherent [] := by
  induction h with
  | name x => trivial
  | abs x _ _ ihA ihe => exact ⟨ihA, ihe.index (ρ := [])⟩
  | all x _ _ ihA ihB => exact ⟨ihA, ihB.index (ρ := [])⟩
  | arrow _ _ ihA ihB => exact ⟨ihA, ihB.shiftBy (τ := []) (ν := [.anonymous])⟩
  | app _ _ ihf iha => exact ⟨ihf, iha⟩
  | star => trivial
  | box => trivial

/-- **What is built has every free occurrence outside of the binders of its name.** -/
theorem Built.unshadowed {e : Expr} (h : Built e) : e.Unshadowed [] := by
  induction h with
  | name x => exact List.not_mem_nil
  | abs x _ _ ihA ihe => exact ⟨ihA, ihe.index (i := .innermost x) List.not_mem_nil⟩
  | all x _ _ ihA ihB => exact ⟨ihA, ihB.index (i := .innermost x) List.not_mem_nil⟩
  | arrow _ _ ihA ihB => exact ⟨ihA, (ihB.shiftBy 1 0).mono fun x hx => by simp at hx⟩
  | app _ _ ihf iha => exact ⟨ihf, iha⟩
  | star => trivial
  | box => trivial

end Expr

end Constructions
