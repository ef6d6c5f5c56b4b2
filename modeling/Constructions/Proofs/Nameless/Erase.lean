import Constructions.Term.Pass
import Constructions.Proofs.Nameless.Basic

/-!
# Forgetting names

`Expr.erase` forgets the displayed names of an expression.  Equality up to names is equality of what
remains (`alphaEq_iff`), and each operation on expressions is one on nameless trees:

* `erase_shiftBy` -- a shift is a renaming (`Nameless.gap`);
* `erase_substAt` -- an elimination is a substitution (`Nameless.plug`);
* `erase_pass` -- a pass is a pass (`Nameless.pass`).

So what any of them gives, up to names, does not depend on names.
-/

namespace Constructions

/-! ## 1. Erasure and equality -/

/-- The occurrence at a depth; a negative one is stray. -/
def Nameless.ofDepth : Int → Nameless
  | .ofNat n => .idx n
  | .negSucc n => .stray n

/-- The expression without its displayed names. -/
def Expr.erase : Expr → Nameless
  | var (.free x) => .const x
  | var (.bound i) => .ofDepth i.depth
  | lam _ A e => .lam A.erase e.erase
  | pi _ A B => .pi A.erase B.erase
  | app f a => .app f.erase a.erase
  | star => .star
  | box => .box
  | unknown => .unknown

namespace Nameless

@[simp] theorem ofDepth_natCast (n : Nat) : ofDepth n = idx n := rfl

theorem ofDepth_of_nonneg {d : Int} (h : 0 ≤ d) : ofDepth d = idx d.toNat := by
  obtain ⟨n, rfl⟩ := Int.eq_ofNat_of_zero_le h
  rfl

theorem ofDepth_inj {d d' : Int} (h : ofDepth d = ofDepth d') : d = d' := by
  cases d <;> cases d' <;> simp_all [ofDepth]

/-- A depth is an index or stray, never another node. -/
theorem ofDepth_cases (d : Int) : (∃ n, ofDepth d = idx n) ∨ ∃ n, ofDepth d = stray n := by
  cases d with
  | ofNat n => exact .inl ⟨n, rfl⟩
  | negSucc n => exact .inr ⟨n, rfl⟩

end Nameless

namespace Expr

theorem erase_bound {i : Idx} {t : Nameless} (h : (var (.bound i)).erase = t) :
    (∃ n, t = .idx n) ∨ ∃ n, t = .stray n := by
  subst h
  exact Nameless.ofDepth_cases i.depth

theorem erase_eq_const {e : Expr} {x : String} (h : e.erase = .const x) : e = var (.free x) := by
  cases e with
  | var r =>
    cases r with
    | free y => cases h; rfl
    | bound i =>
      rcases erase_bound h with ⟨n, hn⟩ | ⟨n, hn⟩ <;> cases hn
  | _ => cases h

theorem erase_eq_lam {e : Expr} {A' f' : Nameless} (h : e.erase = .lam A' f') :
    ∃ b A f, e = lam b A f ∧ A.erase = A' ∧ f.erase = f' := by
  cases e with
  | var r =>
    cases r with
    | free y => cases h
    | bound i =>
      rcases erase_bound h with ⟨n, hn⟩ | ⟨n, hn⟩ <;> cases hn
  | lam b A f => cases h; exact ⟨b, A, f, rfl, rfl, rfl⟩
  | _ => cases h

theorem erase_eq_pi {e : Expr} {A' B' : Nameless} (h : e.erase = .pi A' B') :
    ∃ b A B, e = pi b A B ∧ A.erase = A' ∧ B.erase = B' := by
  cases e with
  | var r =>
    cases r with
    | free y => cases h
    | bound i =>
      rcases erase_bound h with ⟨n, hn⟩ | ⟨n, hn⟩ <;> cases hn
  | pi b A B => cases h; exact ⟨b, A, B, rfl, rfl, rfl⟩
  | _ => cases h

theorem erase_eq_app {e : Expr} {f' a' : Nameless} (h : e.erase = .app f' a') :
    ∃ f a, e = app f a ∧ f.erase = f' ∧ a.erase = a' := by
  cases e with
  | var r =>
    cases r with
    | free y => cases h
    | bound i =>
      rcases erase_bound h with ⟨n, hn⟩ | ⟨n, hn⟩ <;> cases hn
  | app f a => cases h; exact ⟨f, a, rfl, rfl, rfl⟩
  | _ => cases h

/-- A tree without children other than an occurrence is the erasure of itself alone. -/
theorem erase_eq_leaf {e : Expr} :
    (e.erase = .star → e = star) ∧ (e.erase = .box → e = box)
      ∧ (e.erase = .unknown → e = unknown) := by
  cases e with
  | var r =>
    cases r with
    | free y => simp [erase]
    | bound i => rcases Nameless.ofDepth_cases i.depth with ⟨n, hn⟩ | ⟨n, hn⟩ <;> simp [erase, hn]
  | _ => simp [erase]

theorem erase_eq_of_alphaEq {e f : Expr} (h : e.alphaEq f = true) : e.erase = f.erase := by
  induction e generalizing f with
  | var r =>
    cases f <;> simp only [alphaEq, Bool.false_eq_true] at h
    rename_i s
    cases r <;> cases s <;> simp_all [Ref.same, erase]
  | lam b A e ihA ihe =>
    cases f <;> simp only [alphaEq, Bool.and_eq_true, Bool.false_eq_true] at h
    rw [erase, erase, ihA h.1, ihe h.2]
  | pi b A B ihA ihB =>
    cases f <;> simp only [alphaEq, Bool.and_eq_true, Bool.false_eq_true] at h
    rw [erase, erase, ihA h.1, ihB h.2]
  | app g a ihg iha =>
    cases f <;> simp only [alphaEq, Bool.and_eq_true, Bool.false_eq_true] at h
    rw [erase, erase, ihg h.1, iha h.2]
  | star => cases f <;> simp_all [alphaEq]
  | box => cases f <;> simp_all [alphaEq]
  | unknown => cases f <;> simp_all [alphaEq]

theorem alphaEq_of_erase_eq {e f : Expr} (h : e.erase = f.erase) : e.alphaEq f = true := by
  induction e generalizing f with
  | var r =>
    cases r with
    | free x => rw [erase_eq_const h.symm]; exact alphaEq_refl _
    | bound i =>
      cases f with
      | var s =>
        cases s with
        | free y => exact absurd (erase_eq_const h) nofun
        | bound j => simpa [alphaEq, Ref.same] using Nameless.ofDepth_inj h
      | _ => rcases erase_bound h with ⟨n, hn⟩ | ⟨n, hn⟩ <;> cases hn
  | lam b A e ihA ihe =>
    obtain ⟨b', A', e', rfl, hA, he⟩ := erase_eq_lam h.symm
    simp [alphaEq, ihA hA.symm, ihe he.symm]
  | pi b A B ihA ihB =>
    obtain ⟨b', A', B', rfl, hA, hB⟩ := erase_eq_pi h.symm
    simp [alphaEq, ihA hA.symm, ihB hB.symm]
  | app g a ihg iha =>
    obtain ⟨g', a', rfl, hg, ha⟩ := erase_eq_app h.symm
    simp [alphaEq, ihg hg.symm, iha ha.symm]
  | star => rw [erase_eq_leaf.1 h.symm]; rfl
  | box => rw [erase_eq_leaf.2.1 h.symm]; rfl
  | unknown => rw [erase_eq_leaf.2.2 h.symm]; rfl

/-- **Equality up to displayed names is equality without them.** -/
theorem alphaEq_iff {e f : Expr} : e.alphaEq f = true ↔ e.erase = f.erase :=
  ⟨erase_eq_of_alphaEq, alphaEq_of_erase_eq⟩

end Expr

/-! ## 2. Shifts -/

/-- The renaming that opens a gap of `k` indices at `c`. -/
def Nameless.gap (k c : Nat) (n : Nat) : Nat := if n < c then n else n + k

theorem Nameless.upRen_gap (k c : Nat) : upRen (gap k c) = gap k (c + 1) := by
  funext n
  cases n with
  | zero => rfl
  | succ n =>
    simp only [upRen_succ, gap]
    split <;> split <;> omega

namespace Expr

/-- A shift opens a gap. -/
theorem erase_shiftBy (k c : Nat) (e : Expr) :
    (e.shiftBy k c).erase = e.erase.rename (Nameless.gap k c) := by
  induction e generalizing c with
  | var r =>
    cases r with
    | free x => rfl
    | bound i =>
      obtain ⟨d, x⟩ := i
      cases d with
      | ofNat n =>
        simp only [shiftBy, Int.ofNat_eq_natCast, Idx.move]
        split
        · rename_i h
          have hn : ¬ n < c := by omega
          have hm : (n : Int) + (k : Int) = ((n + k : Nat) : Int) := by omega
          show Nameless.ofDepth ((n : Int) + k) = .idx (if n < c then n else n + k)
          rw [if_neg hn, hm]
          rfl
        · rename_i h
          have hn : n < c := by omega
          simp [erase, Nameless.rename, Nameless.gap, hn]
      | negSucc n =>
        simp only [shiftBy]
        rw [if_neg (by omega)]
        rfl
  | lam b A e ihA ihe =>
    have he := ihe (c + 1)
    rw [Int.natCast_succ] at he
    simp only [shiftBy, erase, Nameless.rename, ihA, he, Nameless.upRen_gap]
  | pi b A B ihA ihB =>
    have hB := ihB (c + 1)
    rw [Int.natCast_succ] at hB
    simp only [shiftBy, erase, Nameless.rename, ihA, hB, Nameless.upRen_gap]
  | app f a ihf iha => simp only [shiftBy, erase, Nameless.rename, ihf, iha]
  | star => rfl
  | box => rfl
  | unknown => rfl

/-- A shift of everything is a lift. -/
theorem erase_shiftBy_zero (k : Nat) (e : Expr) : (e.shiftBy k 0).erase = e.erase.liftN k :=
  erase_shiftBy k 0 e

end Expr

/-! ## 3. Elimination of a binder -/

/-- The substitution that puts `s`, lifted `k` times, for the index `l` and brings every deeper one
    a binder closer. -/
def Nameless.plug (s : Nameless) (l k : Nat) (n : Nat) : Nameless :=
  if n = l then s.liftN k else if l < n then idx (n - 1) else idx n

theorem Nameless.up_plug (s : Nameless) (l k : Nat) : up (plug s l k) = plug s (l + 1) (k + 1) := by
  funext n
  cases n with
  | zero => simp [plug]
  | succ n =>
    simp only [up_succ, plug, Nat.add_right_cancel_iff, Nat.add_lt_add_iff_right]
    split
    · exact (liftN_succ k s).symm
    · split
      · have hn : n - 1 + 1 = n + 1 - 1 := by omega
        exact congrArg idx hn
      · rfl

theorem Nameless.plug_zero (s : Nameless) : plug s 0 0 = single s := by
  funext n
  cases n with
  | zero => exact liftN_zero s
  | succ n => simp [plug, single]

namespace Expr

/-- An elimination is a substitution. -/
theorem erase_substAt (s : Expr) (l k : Nat) (e : Expr) :
    (substAt s l k e).erase = e.erase.subst (Nameless.plug s.erase l k) := by
  induction e generalizing l k with
  | var r =>
    cases r with
    | free x => rfl
    | bound i =>
      obtain ⟨d, x⟩ := i
      cases d with
      | ofNat n =>
        simp only [substAt, Int.ofNat_eq_natCast, Idx.move, erase, Nameless.ofDepth_natCast,
          Nameless.subst, Nameless.plug, Int.natCast_inj, Int.ofNat_lt]
        split
        · exact erase_shiftBy_zero k s
        · split
          · have hm : (n : Int) + -1 = ((n - 1 : Nat) : Int) := by omega
            simp [erase, hm]
          · rfl
      | negSucc n =>
        simp only [substAt]
        rw [if_neg (by omega), if_neg (by omega)]
        rfl
  | lam b A e ihA ihe =>
    have he := ihe (l + 1) (k + 1)
    rw [Int.natCast_succ] at he
    simp only [substAt, erase, Nameless.subst, ihA, he, Nameless.up_plug]
  | pi b A B ihA ihB =>
    have hB := ihB (l + 1) (k + 1)
    rw [Int.natCast_succ] at hB
    simp only [substAt, erase, Nameless.subst, ihA, hB, Nameless.up_plug]
  | app f a ihf iha => simp only [substAt, erase, Nameless.subst, ihf, iha]
  | star => rfl
  | box => rfl
  | unknown => rfl

theorem erase_instantiate (e a : Expr) : (e.instantiate a).erase = e.erase.inst a.erase := by
  have h := erase_substAt a 0 0 e
  rw [Nameless.plug_zero] at h
  exact h

end Expr

/-! ## 4. Passes -/

/-- Contracts each redex that no other redex contains. -/
def Nameless.pass : Nameless → Nameless
  | lam A e => lam A.pass e.pass
  | pi A B => pi A.pass B.pass
  | app (lam _ e) a => e.inst a
  | app f a => app f.pass a.pass
  | e => e

theorem Nameless.pass_app {f : Nameless} (hf : ∀ A e, f ≠ lam A e) (a : Nameless) :
    (app f a).pass = app f.pass a.pass := by
  cases f with
  | lam A e => exact absurd rfl (hf A e)
  | _ => rfl

/-- A pass is a pass without names. -/
theorem Expr.erase_pass (e : Expr) : e.pass.erase = e.erase.pass := by
  fun_induction Expr.pass e with
  | case1 b A e ihA ihe => simp only [erase, Nameless.pass, ihA, ihe]
  | case2 b A B ihA ihB => simp only [erase, Nameless.pass, ihA, ihB]
  | case3 b A e a => exact erase_instantiate e a
  | case4 f a hf ihf iha =>
    have hne : ∀ A e, f.erase ≠ .lam A e := by
      intro A e h
      obtain ⟨b, A', e', rfl, _⟩ := erase_eq_lam h
      exact hf b A' e' rfl
    rw [erase, erase, Nameless.pass_app hne, ihf, iha]
  | case5 r =>
    cases r with
    | free x => rfl
    | bound i =>
      rcases Nameless.ofDepth_cases i.depth with ⟨n, hn⟩ | ⟨n, hn⟩ <;>
        simp [erase, hn, Nameless.pass]
  | case6 => rfl
  | case7 => rfl
  | case8 => rfl

end Constructions
