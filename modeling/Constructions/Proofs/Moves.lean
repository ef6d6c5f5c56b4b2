import Constructions.Term.Subst

/-!
# The laws of shifting and substitution

Both operations rebuild a tree and change its bound occurrences only, each by its depth and by the
number of binders crossed on the way to it.  So a law that holds of every occurrence, below any
number of binders, holds of every tree.

* `Expr.Leafwise` -- the families of maps of this kind; `Leafwise.ext` -- two of them are equal when
  they agree on bound occurrences.
* `shiftBy_shiftBy`, `shiftBy_comm`, `substAt_shiftBy`, `shiftBy_substAt_of_le`,
  `shiftBy_substAt_of_ge` -- how shifts and substitutions pass each other.
* `shift_laws`, `substitution_lemma` -- the same for the operations that may fail: none of them does
  here, and both sides are one tree, displayed names included.
-/

namespace Constructions

namespace Expr

/-! ## 1. Maps of bound occurrences -/

/-- `F m` rebuilds an expression that stands below `m` binders, and changes bound occurrences
    only. -/
structure Leafwise (F : Nat → Expr → Expr) : Prop where
  free : ∀ m x, F m (.var (.free x)) = .var (.free x)
  lam : ∀ m b A e, F m (.lam b A e) = .lam b (F m A) (F (m + 1) e)
  pi : ∀ m b A B, F m (.pi b A B) = .pi b (F m A) (F (m + 1) B)
  app : ∀ m f a, F m (.app f a) = .app (F m f) (F m a)
  star : ∀ m, F m .star = .star
  box : ∀ m, F m .box = .box
  unknown : ∀ m, F m .unknown = .unknown

namespace Leafwise

variable {F G : Nat → Expr → Expr}

theorem id : Leafwise fun _ e => e := by
  constructor <;> intros <;> rfl

theorem comp (hF : Leafwise F) (hG : Leafwise G) : Leafwise fun m e => G m (F m e) where
  free m x := by rw [hF.free, hG.free]
  lam m b A e := by rw [hF.lam, hG.lam]
  pi m b A B := by rw [hF.pi, hG.pi]
  app m f a := by rw [hF.app, hG.app]
  star m := by rw [hF.star, hG.star]
  box m := by rw [hF.box, hG.box]
  unknown m := by rw [hF.unknown, hG.unknown]

/-- **Maps that agree on bound occurrences agree.** -/
theorem ext (hF : Leafwise F) (hG : Leafwise G)
    (h : ∀ m d x, F m (.var (.bound ⟨d, x⟩)) = G m (.var (.bound ⟨d, x⟩))) (m : Nat) (e : Expr) :
    F m e = G m e := by
  induction e generalizing m with
  | var r =>
    cases r with
    | free x => rw [hF.free, hG.free]
    | bound i => exact h m i.depth i.name
  | lam b A e ihA ihe => rw [hF.lam, hG.lam, ihA, ihe]
  | pi b A B ihA ihB => rw [hF.pi, hG.pi, ihA, ihB]
  | app f a ihf iha => rw [hF.app, hG.app, ihf, iha]
  | star => rw [hF.star, hG.star]
  | box => rw [hF.box, hG.box]
  | unknown => rw [hF.unknown, hG.unknown]

theorem shiftBy (k c : Int) : Leafwise fun m => Expr.shiftBy k (c + m) := by
  constructor <;> intros <;> simp only [Expr.shiftBy, Int.natCast_succ, Int.add_assoc]

theorem substAt (s : Expr) (l : Int) (k : Nat) :
    Leafwise fun m => Expr.substAt s (l + m) (m + k) := by
  constructor <;> intros <;>
    simp only [Expr.substAt, Int.natCast_succ, Int.add_assoc, Nat.add_right_comm]

end Leafwise

/-! ## 2. Single occurrences -/

section

variable {d k c l : Int} {x : String} {s : Expr} {m : Nat}

theorem shiftBy_bound_of_le (h : c ≤ d) :
    (var (.bound ⟨d, x⟩)).shiftBy k c = var (.bound ⟨d + k, x⟩) := if_pos h

theorem shiftBy_bound_of_lt (h : d < c) :
    (var (.bound ⟨d, x⟩)).shiftBy k c = var (.bound ⟨d, x⟩) := if_neg (Int.not_le.mpr h)

theorem breach?_bound_of_le (h : c ≤ d → 0 ≤ d + k) :
    (var (.bound ⟨d, x⟩)).breach? k c = none := by
  refine if_neg ?_
  show ¬ (c ≤ d ∧ d + k < 0)
  omega

theorem substAt_bound_of_eq (h : d = l) : substAt s l m (var (.bound ⟨d, x⟩)) = s.shiftBy m 0 :=
  if_pos h

theorem substAt_bound_of_gt (h : l < d) :
    substAt s l m (var (.bound ⟨d, x⟩)) = var (.bound ⟨d + -1, x⟩) :=
  (if_neg (Int.ne_of_gt h)).trans (if_pos h)

theorem substAt_bound_of_lt (h : d < l) :
    substAt s l m (var (.bound ⟨d, x⟩)) = var (.bound ⟨d, x⟩) :=
  (if_neg (Int.ne_of_lt h)).trans (if_neg (Int.lt_asymm h))

end

/-! ## 3. Shifts -/

/-- A shift that starts within the gap of another one widens it. -/
theorem shiftBy_shiftBy {a b c c' : Int} (h : c ≤ c') (h' : c' ≤ c + b) (e : Expr) :
    (e.shiftBy b c).shiftBy a c' = e.shiftBy (b + a) c := by
  have hleaf (m : Nat) (d : Int) (x : String) :
      ((var (.bound ⟨d, x⟩)).shiftBy b (c + m)).shiftBy a (c' + m)
        = (var (.bound ⟨d, x⟩)).shiftBy (b + a) (c + m) := by
    by_cases hd : c + m ≤ d
    · rw [shiftBy_bound_of_le hd, shiftBy_bound_of_le hd, shiftBy_bound_of_le (by omega),
        Int.add_assoc]
    · rw [shiftBy_bound_of_lt (by omega), shiftBy_bound_of_lt (by omega),
        shiftBy_bound_of_lt (by omega)]
  simpa using ((Leafwise.shiftBy b c).comp (.shiftBy a c')).ext (.shiftBy (b + a) c) hleaf 0 e

/-- Two shifts commute; the outer one starts further out after the inner one. -/
theorem shiftBy_comm {a b c c' : Int} (ha : 0 ≤ a) (hb : 0 ≤ b) (h : c ≤ c') (e : Expr) :
    (e.shiftBy b c').shiftBy a c = (e.shiftBy a c).shiftBy b (c' + a) := by
  have hleaf (m : Nat) (d : Int) (x : String) :
      ((var (.bound ⟨d, x⟩)).shiftBy b (c' + m)).shiftBy a (c + m)
        = ((var (.bound ⟨d, x⟩)).shiftBy a (c + m)).shiftBy b (c' + a + m) := by
    by_cases hc' : c' + m ≤ d
    · rw [shiftBy_bound_of_le hc', shiftBy_bound_of_le (by omega), shiftBy_bound_of_le (by omega),
        shiftBy_bound_of_le (by omega), Int.add_right_comm]
    · rw [shiftBy_bound_of_lt (by omega)]
      by_cases hc : c + m ≤ d
      · rw [shiftBy_bound_of_le hc, shiftBy_bound_of_lt (by omega)]
      · rw [shiftBy_bound_of_lt (by omega), shiftBy_bound_of_lt (by omega)]
  simpa using ((Leafwise.shiftBy b c').comp (.shiftBy a c)).ext
    ((Leafwise.shiftBy a c).comp (.shiftBy b (c' + a))) hleaf 0 e

/-- What was moved deeper can be moved back. -/
theorem breach?_shiftBy {a c : Int} (hc : 0 ≤ c) (e : Expr) :
    (e.shiftBy a c).breach? (-a) c = none := by
  induction e generalizing c with
  | var r =>
    cases r with
    | free x => rfl
    | bound i =>
      by_cases hi : c ≤ i.depth
      · rw [shiftBy_bound_of_le hi, breach?_bound_of_le (by omega)]
      · rw [shiftBy_bound_of_lt (by omega), breach?_bound_of_le (by omega)]
  | lam b A e ihA ihe => rw [shiftBy, breach?, ihA hc, ihe (by omega), Option.none_or]
  | pi b A B ihA ihB => rw [shiftBy, breach?, ihA hc, ihB (by omega), Option.none_or]
  | app f a ihf iha => rw [shiftBy, breach?, ihf hc, iha hc, Option.none_or]
  | _ => rfl

/-- A shift can be undone. -/
theorem shift_shiftBy_neg {a c : Int} (ha : 0 ≤ a) (hc : 0 ≤ c) (e : Expr) :
    (e.shiftBy a c).shift (-a) c = .ok e := by
  have hback : (e.shiftBy a c).shiftBy (-a) c = e := by
    rw [shiftBy_shiftBy (Int.le_refl c) (by omega), Int.add_right_neg, shiftBy_zero]
  rw [shift, breach?_shiftBy hc, hback]
  split
  · obtain rfl : a = 0 := by omega
    rw [shiftBy_zero]
  · rfl

/-! ## 4. Shifts and substitutions -/

/-- Binders that were crossed before are crossed by what is put in. -/
theorem substAt_crossed (s : Expr) (l : Int) (k : Nat) (e : Expr) :
    substAt s l k e = substAt (s.shiftBy k 0) l 0 e := by
  have hleaf (m : Nat) (d : Int) (x : String) : substAt s (l + m) (m + k) (var (.bound ⟨d, x⟩))
      = substAt (s.shiftBy k 0) (l + m) m (var (.bound ⟨d, x⟩)) := by
    rcases Int.lt_trichotomy d (l + m) with hd | hd | hd
    · rw [substAt_bound_of_lt hd, substAt_bound_of_lt hd]
    · rw [substAt_bound_of_eq hd, substAt_bound_of_eq hd,
        shiftBy_shiftBy (Int.le_refl 0) (by omega), Nat.add_comm, Int.natCast_add]
    · rw [substAt_bound_of_gt hd, substAt_bound_of_gt hd]
  simpa using (Leafwise.substAt s l k).ext (.substAt (s.shiftBy k 0) l 0) hleaf 0 e

/-- A binder that nothing refers to is eliminated without a trace. -/
theorem substAt_shiftBy (k : Int) (s e : Expr) : substAt s k 0 (e.shiftBy 1 k) = e := by
  have hleaf (m : Nat) (d : Int) (x : String) :
      substAt s (k + m) m ((var (.bound ⟨d, x⟩)).shiftBy 1 (k + m)) = var (.bound ⟨d, x⟩) := by
    by_cases hd : k + m ≤ d
    · rw [shiftBy_bound_of_le hd, substAt_bound_of_gt (by omega), Int.add_neg_cancel_right]
    · rw [shiftBy_bound_of_lt (by omega), substAt_bound_of_lt (by omega)]
  simpa using ((Leafwise.shiftBy 1 k).comp (.substAt s k 0)).ext .id hleaf 0 e

/-- A shift from outside of the eliminated binder passes a substitution. -/
theorem shiftBy_substAt_of_le {a c k : Int} (ha : 0 ≤ a) (hc : 0 ≤ c) (h : k ≤ c) (s e : Expr) :
    (substAt s k 0 e).shiftBy a c = substAt (s.shiftBy a c) k 0 (e.shiftBy a (c + 1)) := by
  have hleaf (m : Nat) (d : Int) (x : String) :
      (substAt s (k + m) m (var (.bound ⟨d, x⟩))).shiftBy a (c + m)
        = substAt (s.shiftBy a c) (k + m) m ((var (.bound ⟨d, x⟩)).shiftBy a (c + 1 + m)) := by
    rcases Int.lt_trichotomy d (k + m) with hd | hd | hd
    · rw [substAt_bound_of_lt hd, shiftBy_bound_of_lt (by omega), shiftBy_bound_of_lt (by omega),
        substAt_bound_of_lt hd]
    · rw [substAt_bound_of_eq hd, shiftBy_bound_of_lt (by omega), substAt_bound_of_eq hd,
        shiftBy_comm (by omega) ha hc]
    · rw [substAt_bound_of_gt hd]
      by_cases hd' : c + 1 + m ≤ d
      · rw [shiftBy_bound_of_le (by omega), shiftBy_bound_of_le hd',
          substAt_bound_of_gt (by omega), Int.add_right_comm]
      · rw [shiftBy_bound_of_lt (by omega), shiftBy_bound_of_lt (by omega), substAt_bound_of_gt hd]
  simpa using ((Leafwise.substAt s k 0).comp (.shiftBy a c)).ext
    ((Leafwise.shiftBy a (c + 1)).comp (.substAt (s.shiftBy a c) k 0)) hleaf 0 e

/-- A shift from inside of the eliminated binder passes a substitution and moves its place. -/
theorem shiftBy_substAt_of_ge {a c k : Int} (ha : 0 ≤ a) (hc : 0 ≤ c) (h : c ≤ k) (s e : Expr) :
    (substAt s k 0 e).shiftBy a c = substAt (s.shiftBy a c) (k + a) 0 (e.shiftBy a c) := by
  have hleaf (m : Nat) (d : Int) (x : String) :
      (substAt s (k + m) m (var (.bound ⟨d, x⟩))).shiftBy a (c + m)
        = substAt (s.shiftBy a c) (k + a + m) m ((var (.bound ⟨d, x⟩)).shiftBy a (c + m)) := by
    rcases Int.lt_trichotomy d (k + m) with hd | hd | hd
    · rw [substAt_bound_of_lt hd]
      by_cases hd' : c + m ≤ d
      · rw [shiftBy_bound_of_le hd', substAt_bound_of_lt (by omega)]
      · rw [shiftBy_bound_of_lt (by omega), substAt_bound_of_lt (by omega)]
    · rw [substAt_bound_of_eq hd, shiftBy_bound_of_le (by omega), substAt_bound_of_eq (by omega),
        shiftBy_comm (by omega) ha hc]
    · rw [substAt_bound_of_gt hd, shiftBy_bound_of_le (by omega), shiftBy_bound_of_le (by omega),
        substAt_bound_of_gt (by omega), Int.add_right_comm]
  simpa using ((Leafwise.substAt s k 0).comp (.shiftBy a c)).ext
    ((Leafwise.shiftBy a c).comp (.substAt (s.shiftBy a c) (k + a) 0)) hleaf 0 e

/-- Two substitutions, the inner binder first or the outer one first. -/
theorem substAt_substAt {j k : Int} (hj : 0 ≤ j) (h : j ≤ k) (n s e : Expr) :
    substAt s k 0 (substAt n j 0 e)
      = substAt (substAt s k 0 n) j 0 (substAt (s.shiftBy 1 j) (k + 1) 0 e) := by
  have hleaf (m : Nat) (d : Int) (x : String) :
      substAt s (k + m) m (substAt n (j + m) m (var (.bound ⟨d, x⟩)))
        = substAt (substAt s k 0 n) (j + m) m
            (substAt (s.shiftBy 1 j) (k + 1 + m) m (var (.bound ⟨d, x⟩))) := by
    rcases Int.lt_trichotomy d (j + m) with hd | hd | hd
    · rw [substAt_bound_of_lt hd, substAt_bound_of_lt (by omega), substAt_bound_of_lt (by omega),
        substAt_bound_of_lt hd]
    · -- a copy of `n`, in which the outer binder is eliminated after the move or before it
      rw [substAt_bound_of_eq hd, substAt_bound_of_lt (by omega), substAt_bound_of_eq hd,
        substAt_crossed, shiftBy_substAt_of_ge (by omega) (Int.le_refl 0) (by omega)]
    · rw [substAt_bound_of_gt hd]
      rcases Int.lt_trichotomy d (k + 1 + m) with hd' | hd' | hd'
      · rw [substAt_bound_of_lt (by omega), substAt_bound_of_lt hd', substAt_bound_of_gt hd]
      · -- a copy of `s`, which was moved past the inner binder and does not refer to it
        rw [substAt_bound_of_eq (by omega), substAt_bound_of_eq hd',
          shiftBy_comm (by omega) (by omega) hj, substAt_crossed, substAt_shiftBy]
      · rw [substAt_bound_of_gt (by omega), substAt_bound_of_gt hd', substAt_bound_of_gt (by omega)]
  simpa using ((Leafwise.substAt n j 0).comp (.substAt s k 0)).ext
    ((Leafwise.substAt (s.shiftBy 1 j) (k + 1) 0).comp (.substAt (substAt s k 0 n) j 0)) hleaf 0 e

/-! ## 5. The operations that may fail -/

/-- Both computations succeed, with the same tree, displayed names included. -/
def SameResult (x y : Except Underflow Expr) : Prop := ∃ r, x = .ok r ∧ y = .ok r

theorem ok_bind (e : Expr) (f : Expr → Except Underflow Expr) : (.ok e >>= f) = f e := rfl

theorem sameResult_ok {x y : Expr} (h : x = y) : SameResult (.ok x) (.ok y) :=
  ⟨x, rfl, congrArg Except.ok h.symm⟩

/-- **How shifts pass shifts and substitutions.**  Shifts from one depth add up and those from two
    depths commute; a shift can be undone, and so can the step below a binder that nothing refers
    to, such as that of an arrow type; and a shift distributes over a substitution, on either side
    of the binder that is eliminated.  Nothing of this fails, whatever the depths in `e` and `u`. -/
theorem shift_laws (e u : Expr) (a b c c' k : Nat) :
    SameResult (e.shift b c >>= fun e => e.shift a c) (e.shift (a + b) c)
      ∧ (c ≤ c' → SameResult (e.shift b c' >>= fun e => e.shift a c)
          (e.shift a c >>= fun e => e.shift b (c' + a)))
      ∧ (e.shift a c >>= fun e => e.shift (-a) c) = .ok e
      ∧ (e.shift 1 k >>= fun e => e.subst k u) = .ok e
      ∧ (∀ A, ∃ B, arrow A e = pi .anonymous A B ∧ B.subst 0 u = .ok e)
      ∧ (k ≤ c → SameResult (e.subst k u >>= fun e => e.shift a c)
          (do (← e.shift a (c + 1)).subst k (← u.shift a c)))
      ∧ (c ≤ k → SameResult (e.subst k u >>= fun e => e.shift a c)
          (do (← e.shift a c).subst (k + a) (← u.shift a c))) := by
  simp (disch := omega) only [shift_of_nonneg, subst_of_nonneg, ok_bind]
  refine ⟨sameResult_ok ?_, fun h => sameResult_ok ?_, ?_, ?_, fun A => ⟨_, rfl, ?_⟩,
    fun h => sameResult_ok ?_, fun h => sameResult_ok ?_⟩
  · rw [shiftBy_shiftBy (Int.le_refl _) (by omega), Int.add_comm]
  · exact shiftBy_comm (by omega) (by omega) (by omega) e
  · exact shift_shiftBy_neg (by omega) (by omega) e
  · exact congrArg Except.ok (substAt_shiftBy k u e)
  · exact congrArg Except.ok (substAt_shiftBy 0 u e)
  · exact shiftBy_substAt_of_le (by omega) (by omega) (by omega) u e
  · exact shiftBy_substAt_of_ge (by omega) (by omega) (by omega) u e

/-- `e` is `λx:2 . 0 1 -3`, with indices below, at and above the depths in question and a negative
    one, and `u` is `0 1`. -/
theorem shift_laws_open :
    let u : Expr := .app (.var (.bound ⟨0, "p"⟩)) (.var (.bound ⟨1, "q"⟩))
    let e : Expr := .lam (.named "x") (.var (.bound ⟨2, "y"⟩)) (.app (.app (.var (.bound ⟨0, "x"⟩))
      (.var (.bound ⟨1, "z"⟩))) (.var (.bound ⟨-3, "w"⟩)))
    (1 ≤ 2 ∧ SameResult (e.shift 3 2 >>= fun e => e.shift 2 1)
        (e.shift 2 1 >>= fun e => e.shift 3 4))
      ∧ (0 ≤ 1 ∧ SameResult (e.subst 0 u >>= fun e => e.shift 2 1)
          (do (← e.shift 2 2).subst 0 (← u.shift 2 1)))
      ∧ (1 ≤ 2 ∧ SameResult (e.subst 2 u >>= fun e => e.shift 2 1)
          (do (← e.shift 2 1).subst 4 (← u.shift 2 1))) := by
  intro u e
  obtain ⟨_, hcomm, _, _, _, hle, _⟩ := shift_laws e u 2 3 1 2 0
  obtain ⟨_, _, _, _, _, _, hge⟩ := shift_laws e u 2 3 1 2 2
  exact ⟨⟨by decide, hcomm (by decide)⟩, ⟨by decide, hle (by decide)⟩,
    ⟨by decide, hge (by decide)⟩⟩

/-- **The substitution lemma.**  Of two nested binders, the inner one can be eliminated first, or
    the outer one, in what is put for the inner one as well. -/
theorem substitution_lemma (e n s : Expr) {j k : Int} (hj : 0 ≤ j) (h : j ≤ k) :
    SameResult (do (← e.subst j n).subst k s)
      (do (← e.subst (k + 1) (← s.shift 1 j)).subst j (← n.subst k s)) := by
  simp (disch := omega) only [shift_of_nonneg, subst_of_nonneg, ok_bind]
  exact sameResult_ok (substAt_substAt hj h n s e)

/-- Eliminated are the binders `1` and `3` of `e = λx:* . 1 3 4`, which are `0` and `2` outside of
    it; `n` is `1 0`, where `1` stands for the outer binder, and `s` is `0`. -/
theorem substitution_lemma_open :
    let s : Expr := .var (.bound ⟨0, "s"⟩)
    let n : Expr := .app (.var (.bound ⟨1, "y"⟩)) (.var (.bound ⟨0, "z"⟩))
    let e : Expr := .lam (.named "x") .star (.app (.app (.var (.bound ⟨1, "n"⟩))
      (.var (.bound ⟨3, "y"⟩))) (.var (.bound ⟨4, "w"⟩)))
    let r : Expr := .lam (.named "x") .star (.app (.app
      (.app (.var (.bound ⟨1, "s"⟩)) (.var (.bound ⟨1, "z"⟩)))
      (.var (.bound ⟨1, "s"⟩))) (.var (.bound ⟨2, "w"⟩)))
    (0 : Int) ≤ 0 ∧ (0 : Int) ≤ 1
      ∧ (do (← e.subst 0 n).subst 1 s) = .ok r
      ∧ (do (← e.subst 2 (← s.shift 1 0)).subst 0 (← n.subst 1 s)) = .ok r := by
  intro s n e r
  obtain ⟨r', hinner, houter⟩ := substitution_lemma e n s (Int.le_refl 0) (k := 1) (by decide)
  have hr : (do (← e.subst 0 n).subst 1 s) = .ok r := rfl
  cases hinner.symm.trans hr
  exact ⟨by decide, by decide, hr, houter⟩

end Expr

end Constructions
