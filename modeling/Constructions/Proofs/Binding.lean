import Constructions.Proofs.Coherence
import Constructions.Proofs.Typing.Yields

/-!
# What a binder binds

A binder resolves the occurrences of its name in a body that may have been built or reduced before.

* `Expr.Reached` -- what the constructors of terms build, with reductions on the way.
* `Expr.Nearest σ e` -- no other binder of its name stands between an index and its binder.
* `Expr.sheltered x s e` -- the free occurrences of `x`, and which of them stand below a binder of
  that name.

Main statements:

* `Reached.names_agree` -- whatever is reached is closed and coherent, and reduction adds no free
  names.  What is built without reduction has each index at the innermost binder of its name, and
  each free occurrence outside of the binders of its name.
* `abs_alphaEq_iff` -- binding a name respects equality up to displayed names exactly as far as the
  same occurrences are sheltered.
* `abs_reduced_differ` -- they need not be: reduction can bring a free occurrence below a binder of
  its name, and there no further binder takes it.
-/

namespace Constructions

open Run

namespace Expr

/-! ## 1. What is reached -/

/-- What the constructors of terms build, with passes and reductions at any point on the way. -/
inductive Reached : Expr → Prop
  | name (x : String) : Reached (var (.free x))
  | abs (x : String) {A e : Expr} (hA : Reached A) (he : Reached e) :
      Reached (Expr.abs (.named x) A e)
  | all (x : String) {A B : Expr} (hA : Reached A) (hB : Reached B) :
      Reached (Expr.all (.named x) A B)
  | arrow {A B : Expr} (hA : Reached A) (hB : Reached B) : Reached (Expr.arrow A B)
  | app {f a : Expr} (hf : Reached f) (ha : Reached a) : Reached (Expr.app f a)
  | star : Reached Expr.star
  | box : Reached Expr.box
  | pass {e : Expr} (he : Reached e) : Reached e.pass
  | reduce {cap : Int} {fuel : Nat} {e r : Expr} (he : Reached e)
      (hr : (Constructions.reduce cap fuel e).Yields r) : Reached r

theorem Built.reached {e : Expr} (h : Built e) : Reached e := by
  induction h with
  | name x => exact .name x
  | abs x _ _ ihA ihe => exact .abs x ihA ihe
  | all x _ _ ihA ihB => exact .all x ihA ihB
  | arrow _ _ ihA ihB => exact .arrow ihA ihB
  | app _ _ ihf iha => exact .app ihf iha
  | star => exact .star
  | box => exact .box

/-- Reduction keeps an expression coherent. -/
theorem Coherent.reduce {cap : Int} {fuel : Nat} {σ : List Binder} {e r : Expr} (h : e.Coherent σ)
    (hr : (Constructions.reduce cap fuel e).Yields r) : r.Coherent σ := by
  obtain ⟨n, rfl, _⟩ := reduce_iterates hr
  exact h.iterate_pass (n + 1)

/-- **Whatever is reached is closed and coherent.** -/
theorem Reached.coherent {e : Expr} (h : Reached e) : e.Coherent [] := by
  induction h with
  | name x => trivial
  | abs x _ _ ihA ihe => exact ⟨ihA, ihe.index (ρ := [])⟩
  | all x _ _ ihA ihB => exact ⟨ihA, ihB.index (ρ := [])⟩
  | arrow _ _ ihA ihB => exact ⟨ihA, ihB.shiftBy (τ := []) (ν := [.anonymous])⟩
  | app _ _ ihf iha => exact ⟨ihf, iha⟩
  | star => trivial
  | box => trivial
  | pass _ ih => exact ih.pass
  | reduce _ hr ih => exact ih.reduce hr

/-- Reduction adds no free names. -/
theorem mem_freeNames_of_reduce {cap : Int} {fuel : Nat} {e r : Expr}
    (h : (Constructions.reduce cap fuel e).Yields r) {x : String} (hx : x ∈ r.freeNames) :
    x ∈ e.freeNames := by
  rw [← names_erase] at hx ⊢
  exact Nameless.mem_names_of_steps (reduce_yields h).steps hx

/-! ## 2. The innermost binder of a name -/

/-- No binder between an index and the one it points at has the name that the index carries. -/
def Nearest : List Binder → Expr → Prop
  | σ, var (.bound i) => .named i.name ∉ σ.take i.depth.toNat
  | σ, lam b A e => A.Nearest σ ∧ e.Nearest (b :: σ)
  | σ, pi b A B => A.Nearest σ ∧ B.Nearest (b :: σ)
  | σ, app f a => f.Nearest σ ∧ a.Nearest σ
  | _, _ => True

/-- Binders further out change nothing. -/
theorem Nearest.append {τ ρ : List Binder} {e : Expr} (hc : e.Coherent τ) (h : e.Nearest τ) :
    e.Nearest (τ ++ ρ) := by
  induction e generalizing τ with
  | var r =>
    cases r with
    | free x => trivial
    | bound i =>
      have hlt := (List.getElem?_eq_some_iff.mp hc.2).1
      rw [Nearest, List.take_append_of_le_length (Nat.le_of_lt hlt)]
      exact h
  | lam b A e ihA ihe => exact ⟨ihA hc.1 h.1, ihe hc.2 h.2⟩
  | pi b A B ihA ihB => exact ⟨ihA hc.1 h.1, ihB hc.2 h.2⟩
  | app f a ihf iha => exact ⟨ihf hc.1 h.1, iha hc.2 h.2⟩
  | _ => trivial

/-- A new binder is the innermost of its name for all that it takes. -/
theorem Nearest.index {τ ρ : List Binder} {x : String} {e : Expr} (hc : e.Coherent τ)
    (h : e.Nearest τ) (hx : .named x ∉ τ) :
    (e.index ⟨τ.length, x⟩).Nearest (τ ++ .named x :: ρ) := by
  have hbody (b : Binder) {τ : List Binder} {e : Expr} (hc : e.Coherent (b :: τ))
      (h : e.Nearest (b :: τ)) (hx : .named x ∉ τ)
      (ih : .named x ∉ b :: τ →
        (e.index ⟨(b :: τ).length, x⟩).Nearest (b :: τ ++ .named x :: ρ)) :
      Nearest (b :: (τ ++ .named x :: ρ))
        (if b.captures x then e else e.index (Idx.inc ⟨τ.length, x⟩)) := by
    split
    · exact Nearest.append hc h
    · rename_i hb
      rw [captures_iff] at hb
      refine ih fun hmem => ?_
      rcases List.mem_cons.mp hmem with heq | hmem
      · exact hb heq.symm
      · exact hx hmem
  induction e generalizing τ with
  | var r =>
    cases r with
    | free y =>
      rw [Expr.index]
      split
      · rw [Nearest, Int.toNat_natCast, List.take_left]
        exact hx
      · trivial
    | bound i => exact Nearest.append hc h
  | lam b A e ihA ihe => exact ⟨ihA hc.1 h.1 hx, hbody b hc.2 h.2 hx (ihe hc.2 h.2)⟩
  | pi b A B ihA ihB => exact ⟨ihA hc.1 h.1 hx, hbody b hc.2 h.2 hx (ihB hc.2 h.2)⟩
  | app f a ihf iha => exact ⟨ihf hc.1 h.1 hx, iha hc.2 h.2 hx⟩
  | _ => trivial

/-- Nothing moves a coherent expression from where its binders end. -/
theorem Coherent.shiftBy_eq {τ : List Binder} {e : Expr} (h : e.Coherent τ) (k : Int) :
    e.shiftBy k τ.length = e := by
  induction e generalizing τ with
  | var r =>
    cases r with
    | free x => rfl
    | bound i =>
      have hlt := (List.getElem?_eq_some_iff.mp h.2).1
      have hnn := h.1
      rw [Expr.shiftBy, if_neg (by omega)]
  | lam b A e ihA ihe =>
    have hbody : e.shiftBy k (τ.length + 1) = e := ihe h.2
    rw [Expr.shiftBy, ihA h.1, hbody]
  | pi b A B ihA ihB =>
    have hbody : B.shiftBy k (τ.length + 1) = B := ihB h.2
    rw [Expr.shiftBy, ihA h.1, hbody]
  | app f a ihf iha => rw [Expr.shiftBy, ihf h.1, iha h.2]
  | _ => rfl

/-- **What is built has each index at the innermost binder of its name.** -/
theorem Built.nearest {e : Expr} (h : Built e) : e.Nearest [] := by
  induction h with
  | name x => trivial
  | abs x _ he ihA ihe => exact ⟨ihA, ihe.index (ρ := []) he.coherent List.not_mem_nil⟩
  | all x _ hB ihA ihB => exact ⟨ihA, ihB.index (ρ := []) hB.coherent List.not_mem_nil⟩
  | @arrow A B _ hB ihA ihB =>
    have hshift : B.shiftBy 1 0 = B := hB.coherent.shiftBy_eq 1
    refine ⟨ihA, ?_⟩
    rw [hshift]
    exact ihB.append hB.coherent
  | app _ _ ihf iha => exact ⟨ihf, iha⟩
  | star => trivial
  | box => trivial

/-- **Names and indices never drift apart.**  Whatever is reached is closed and coherent, and its
    reduct has no other free names.  As long as nothing was reduced, each index points at the
    innermost binder of its name, and no free occurrence stands below a binder of its name. -/
theorem Reached.names_agree {e : Expr} (h : Reached e) :
    e.Coherent []
      ∧ (∀ cap fuel r, (Constructions.reduce cap fuel e).Yields r →
          ∀ x ∈ r.freeNames, x ∈ e.freeNames)
      ∧ (e.Built → e.Nearest [] ∧ e.Unshadowed []) :=
  ⟨h.coherent, fun _ _ _ hr _ hx => mem_freeNames_of_reduce hr hx,
    fun hb => ⟨hb.nearest, hb.unshadowed⟩⟩

/-- `λx : N . (λy : N . λx : N . y) x`. -/
def outward : Expr :=
  .abs (.named "x") (.var (.free "N")) (.app (.abs (.named "y") (.var (.free "N"))
    (.abs (.named "x") (.var (.free "N")) (.var (.free "y")))) (.var (.free "x")))

/-- What `outward` reduces to: `λx : N . λx : N . x` with the outer `x`. -/
def outwardReduct : Expr :=
  .lam (.named "x") (.var (.free "N"))
    (.lam (.named "x") (.var (.free "N")) (.var (.bound ⟨1, "x"⟩)))

/-- Reduction takes the index past another binder of its name: the reduct is coherent, and only
    `outward` has every index at the innermost one. -/
theorem names_agree_outward :
    (Constructions.reduce 9 9 outward).Yields outwardReduct
      ∧ outward.Nearest [] ∧ outward.Unshadowed []
      ∧ outwardReduct.Coherent [] ∧ ¬ outwardReduct.Nearest []
      ∧ ∀ x ∈ outwardReduct.freeNames, x ∈ outward.freeNames := by
  have hr : (Constructions.reduce 9 9 outward).Yields outwardReduct := ⟨_, rfl⟩
  have hb : outward.Built :=
    .abs "x" (.name "N") (.app (.abs "y" (.name "N") (.abs "x" (.name "N") (.name "y")))
      (.name "x"))
  obtain ⟨_, hnames, hbuilt⟩ := Reached.names_agree hb.reached
  obtain ⟨hnear, hfree⟩ := hbuilt hb
  have hcoherent := (Reached.names_agree (hb.reached.reduce hr)).1
  refine ⟨hr, hnear, hfree, hcoherent, fun hnear => ?_, hnames 9 9 outwardReduct hr⟩
  exact hnear.2.2 List.mem_cons_self

/-! ## 3. Which occurrences a binder takes -/

/-- The free occurrences of `x` in reading order: for each, whether a binder named `x` stands around
    it.  `s` says whether one stands around the whole. -/
def sheltered (x : String) : Bool → Expr → List Bool
  | s, var (.free y) => if y = x then [s] else []
  | s, lam b A e => A.sheltered x s ++ e.sheltered x (s || b.captures x)
  | s, pi b A B => A.sheltered x s ++ B.sheltered x (s || b.captures x)
  | s, app f a => f.sheltered x s ++ a.sheltered x s
  | _, _ => []

/-- There is one answer for each free occurrence, whatever the displayed names. -/
theorem length_sheltered (x : String) (s : Bool) (e : Expr) :
    (e.sheltered x s).length = e.erase.names.count x := by
  rw [names_erase]
  induction e generalizing s with
  | var r =>
    cases r with
    | free y =>
      by_cases hy : y = x
      · simp [sheltered, freeNames, hy]
      · simp [sheltered, freeNames, hy]
    | bound i => rfl
  | lam b A e ihA ihe =>
    rw [sheltered, freeNames, List.length_append, List.count_append, ihA, ihe]
  | pi b A B ihA ihB =>
    rw [sheltered, freeNames, List.length_append, List.count_append, ihA, ihB]
  | app f a ihf iha =>
    rw [sheltered, freeNames, List.length_append, List.count_append, ihf, iha]
  | _ => rfl

/-- The expression with `i` for the free occurrences of its name, unless a binder around it shelters
    them all. -/
def resolve (i : Idx) (s : Bool) (e : Expr) : Expr := if s then e else e.index i

theorem resolve_lam (i : Idx) (s : Bool) (b : Binder) (A e : Expr) :
    (lam b A e).resolve i s = lam b (A.resolve i s) (e.resolve i.inc (s || b.captures i.name)) := by
  cases s <;> rfl

theorem resolve_pi (i : Idx) (s : Bool) (b : Binder) (A B : Expr) :
    (pi b A B).resolve i s = pi b (A.resolve i s) (B.resolve i.inc (s || b.captures i.name)) := by
  cases s <;> rfl

theorem resolve_app (i : Idx) (s : Bool) (f a : Expr) :
    (app f a).resolve i s = app (f.resolve i s) (a.resolve i s) := by
  cases s <;> rfl

/-- Where the name does not occur, there is nothing to resolve. -/
theorem resolve_of_not_mem {i : Idx} {e : Expr} (h : i.name ∉ e.freeNames) (s : Bool) :
    e.resolve i s = e := by
  induction e generalizing i s with
  | var r =>
    cases r with
    | free y =>
      have hy : y ≠ i.name := fun heq => h (heq ▸ List.mem_singleton_self y)
      cases s
      · exact if_neg hy
      · rfl
    | bound j => cases s <;> rfl
  | lam b A e ihA ihe =>
    rw [freeNames, List.mem_append, not_or] at h
    rw [resolve_lam, ihA h.1, ihe (i := i.inc) h.2]
  | pi b A B ihA ihB =>
    rw [freeNames, List.mem_append, not_or] at h
    rw [resolve_pi, ihA h.1, ihB (i := i.inc) h.2]
  | app f a ihf iha =>
    rw [freeNames, List.mem_append, not_or] at h
    rw [resolve_app, ihf h.1, iha h.2]
  | _ => cases s <;> rfl

/-- Lists of answers for parts that are equal up to names compare part by part. -/
theorem sheltered_append_inj {x : String} {s₁ s₂ t₁ t₂ : Bool} {e₁ e₂ f₁ f₂ : Expr}
    (he : e₁.erase = e₂.erase) :
    e₁.sheltered x s₁ ++ f₁.sheltered x t₁ = e₂.sheltered x s₂ ++ f₂.sheltered x t₂ ↔
      e₁.sheltered x s₁ = e₂.sheltered x s₂ ∧ f₁.sheltered x t₁ = f₂.sheltered x t₂ := by
  have hlen : (e₁.sheltered x s₁).length = (e₂.sheltered x s₂).length := by
    rw [length_sheltered, length_sheltered, he]
  exact ⟨fun h => List.append_inj h hlen, fun h => by rw [h.1, h.2]⟩

/-- Where the name does not occur, both sides are as they were. -/
theorem erase_resolve_iff_of_not_mem {e₁ e₂ : Expr} (h : e₁.erase = e₂.erase) {i : Idx}
    (hi : i.name ∉ e₁.freeNames) (s₁ s₂ : Bool) :
    (e₁.resolve i s₁).erase = (e₂.resolve i s₂).erase ↔
      e₁.sheltered i.name s₁ = e₂.sheltered i.name s₂ := by
  have hi₂ : i.name ∉ e₂.freeNames := by rwa [← names_erase, ← h, names_erase]
  have hnil {e : Expr} (he : i.name ∉ e.freeNames) (s : Bool) : e.sheltered i.name s = [] := by
    rw [← List.length_eq_zero_iff, length_sheltered, names_erase, List.count_eq_zero_of_not_mem he]
  rw [hnil hi, hnil hi₂, resolve_of_not_mem hi, resolve_of_not_mem hi₂]
  exact ⟨fun _ => rfl, fun _ => h⟩

/-- **Resolving a name keeps equality up to names exactly when it finds the same occurrences
    sheltered.** -/
theorem erase_resolve_iff {e₁ e₂ : Expr} (h : e₁.erase = e₂.erase) (i : Idx) (s₁ s₂ : Bool) :
    (e₁.resolve i s₁).erase = (e₂.resolve i s₂).erase ↔
      e₁.sheltered i.name s₁ = e₂.sheltered i.name s₂ := by
  -- on the shape that both share; only the flags record what their binders are called
  induction e₁ generalizing e₂ i s₁ s₂ with
  | var r =>
    cases r with
    | free y =>
      by_cases hy : y = i.name
      · obtain rfl := erase_eq_const h.symm
        have hne : Nameless.ofDepth i.depth ≠ .const y := by
          rcases Nameless.ofDepth_cases i.depth with ⟨n, hn⟩ | ⟨n, hn⟩ <;> rw [hn] <;> exact nofun
        cases s₁ <;> cases s₂ <;> simp [resolve, sheltered, index, erase, ← hy, hne, hne.symm]
      · exact erase_resolve_iff_of_not_mem h (fun hi => hy (List.mem_singleton.mp hi).symm) s₁ s₂
    | bound j => exact erase_resolve_iff_of_not_mem h List.not_mem_nil s₁ s₂
  | lam b A e ihA ihe =>
    obtain ⟨b', A', e', rfl, hA, he⟩ := erase_eq_lam h.symm
    rw [resolve_lam, resolve_lam, erase, erase, sheltered, sheltered,
      sheltered_append_inj hA.symm, Nameless.lam.injEq]
    exact and_congr (ihA hA.symm i s₁ s₂) (ihe he.symm i.inc _ _)
  | pi b A B ihA ihB =>
    obtain ⟨b', A', B', rfl, hA, hB⟩ := erase_eq_pi h.symm
    rw [resolve_pi, resolve_pi, erase, erase, sheltered, sheltered,
      sheltered_append_inj hA.symm, Nameless.pi.injEq]
    exact and_congr (ihA hA.symm i s₁ s₂) (ihB hB.symm i.inc _ _)
  | app f a ihf iha =>
    obtain ⟨f', a', rfl, hf, ha⟩ := erase_eq_app h.symm
    rw [resolve_app, resolve_app, erase, erase, sheltered, sheltered,
      sheltered_append_inj hf.symm, Nameless.app.injEq]
    exact and_congr (ihf hf.symm i s₁ s₂) (iha ha.symm i s₁ s₂)
  | _ => exact erase_resolve_iff_of_not_mem h List.not_mem_nil s₁ s₂

/-- Where no free occurrence stands below a binder of its name, none is sheltered. -/
theorem Unshadowed.not_mem_sheltered {σ : List Binder} {e : Expr} (h : e.Unshadowed σ) {x : String}
    {s : Bool} (hs : s = true → .named x ∈ σ) : true ∉ e.sheltered x s := by
  have hcons {σ : List Binder} {s : Bool} (hs : s = true → .named x ∈ σ) (b : Binder)
      (hb : (s || b.captures x) = true) : .named x ∈ b :: σ := by
    rcases Bool.or_eq_true_iff.mp hb with hs' | hb
    · exact List.mem_cons_of_mem b (hs hs')
    · exact captures_iff.mp hb ▸ List.mem_cons_self
  induction e generalizing σ s with
  | var r =>
    cases r with
    | free y =>
      rw [sheltered]
      split
      · rename_i hy
        intro hmem
        exact h (hy ▸ hs (List.mem_singleton.mp hmem).symm)
      · exact List.not_mem_nil
    | bound i => exact List.not_mem_nil
  | lam b A e ihA ihe =>
    rw [sheltered, List.mem_append, not_or]
    exact ⟨ihA h.1 hs, ihe h.2 (hcons hs b)⟩
  | pi b A B ihA ihB =>
    rw [sheltered, List.mem_append, not_or]
    exact ⟨ihA h.1 hs, ihB h.2 (hcons hs b)⟩
  | app f a ihf iha =>
    rw [sheltered, List.mem_append, not_or]
    exact ⟨ihf h.1 hs, iha h.2 hs⟩
  | _ => exact List.not_mem_nil

/-- What is built shelters nothing, so there it does not matter what binders are called. -/
theorem Built.sheltered_eq {e₁ e₂ : Expr} (h₁ : e₁.Built) (h₂ : e₂.Built)
    (h : e₁.erase = e₂.erase) (x : String) : e₁.sheltered x false = e₂.sheltered x false := by
  have hfalse {e : Expr} (he : e.Built) :
      e.sheltered x false = List.replicate (e.erase.names.count x) false := by
    rw [← length_sheltered x false]
    refine List.eq_replicate_of_mem fun s hs => Bool.eq_false_iff.mpr fun heq => ?_
    have hnone : true ∉ e.sheltered x false :=
      he.unshadowed.not_mem_sheltered fun hf => absurd hf Bool.false_ne_true
    exact hnone (heq ▸ hs)
  rw [hfalse h₁, hfalse h₂, h]

/-- **Binding a name respects equality up to names exactly as far as the same occurrences are
    sheltered**, hence for all that is built without reduction. -/
theorem abs_alphaEq_iff {e₁ e₂ : Expr} (h : e₁.alphaEq e₂ = true) (b : Binder) (T : Expr) :
    ((abs b T e₁).alphaEq (abs b T e₂) = true ↔
        e₁.sheltered b.name false = e₂.sheltered b.name false)
      ∧ ((all b T e₁).alphaEq (all b T e₂) = true ↔
        e₁.sheltered b.name false = e₂.sheltered b.name false)
      ∧ (e₁.Built → e₂.Built → (abs b T e₁).alphaEq (abs b T e₂) = true
        ∧ (all b T e₁).alphaEq (all b T e₂) = true) := by
  have herase := alphaEq_iff.mp h
  have hbody : (e₁.index (.innermost b.name)).erase = (e₂.index (.innermost b.name)).erase ↔
      e₁.sheltered b.name false = e₂.sheltered b.name false :=
    erase_resolve_iff herase (.innermost b.name) false false
  have habs : (abs b T e₁).alphaEq (abs b T e₂) = true ↔
      e₁.sheltered b.name false = e₂.sheltered b.name false := by
    rw [alphaEq_iff, abs, abs, erase, erase, Nameless.lam.injEq, hbody, eq_self, true_and]
  have hall : (all b T e₁).alphaEq (all b T e₂) = true ↔
      e₁.sheltered b.name false = e₂.sheltered b.name false := by
    rw [alphaEq_iff, all, all, erase, erase, Nameless.pi.injEq, hbody, eq_self, true_and]
  refine ⟨habs, hall, fun h₁ h₂ => ?_⟩
  have hsame := h₁.sheltered_eq h₂ herase b.name
  exact ⟨habs.mpr hsame, hall.mpr hsame⟩

/-- `(λz : * . λy : * . z) x`, which reduces to `λy : * . x`. -/
def constant (y : String) : Expr :=
  .app (.abs (.named "z") .star (.abs (.named y) .star (.var (.free "z")))) (.var (.free "x"))

theorem Built.constant (y : String) : (Expr.constant y).Built :=
  .app (.abs "z" .star (.abs y .star (.name "z"))) (.name "x")

/-- What `constant` reduces to.  The occurrence of `x` is free, also where `y` is `x`. -/
def constantReduct (y : String) : Expr := .lam (.named y) .star (.var (.free "x"))

/-- A sheltered occurrence and one that is not: `(λx : * . x) (λy : * . x)`, with any name for the
    second binder that is not `x`. -/
theorem abs_alphaEq_iff_constants :
    let e₁ := app (constantReduct "x") (constantReduct "y")
    let e₂ := app (constantReduct "x") (constantReduct "z")
    e₁.alphaEq e₂ = true ∧ e₁.sheltered "x" false = [true, false]
      ∧ (abs (.named "x") .star e₁).alphaEq (abs (.named "x") .star e₂) = true := by
  intro e₁ e₂
  have h : e₁.alphaEq e₂ = true := by decide
  exact ⟨h, by decide, (abs_alphaEq_iff h (.named "x") .star).1.mpr (by decide)⟩

/-- **Displayed names decide what is bound after a reduction**: `λx : * . x` and `λy : * . x` with a
    free `x` are reached by reduction and equal up to names; a binder named `x` takes the occurrence
    in the second only. -/
theorem abs_reduced_differ :
    let e₁ := constantReduct "x"
    let e₂ := constantReduct "y"
    e₁.Reached ∧ e₂.Reached ∧ e₁.alphaEq e₂ = true
      ∧ abs (.named "x") .star e₁ = .lam (.named "x") .star e₁
      ∧ abs (.named "x") .star e₂
          = .lam (.named "x") .star (.lam (.named "y") .star (.var (.bound ⟨1, "x"⟩)))
      ∧ (abs (.named "x") .star e₁).alphaEq (abs (.named "x") .star e₂) = false
      ∧ (all (.named "x") .star e₁).alphaEq (all (.named "x") .star e₂) = false := by
  intro e₁ e₂
  have h₁ : (Constructions.reduce 9 9 (constant "x")).Yields e₁ := ⟨_, rfl⟩
  have h₂ : (Constructions.reduce 9 9 (constant "y")).Yields e₂ := ⟨_, rfl⟩
  exact ⟨.reduce (Built.constant "x").reached h₁, .reduce (Built.constant "y").reached h₂,
    by decide, rfl, rfl, by decide, by decide⟩

end Expr

end Constructions
