import Constructions.Proofs.Typing.Calculus

/-!
# Types of types, reduction and uniqueness

* `HasType.type_correct` -- in the checked calculus, a type that a tree has is `□` or has a sort.
* `HasType.step`, `HasType.steps` -- reduction keeps every type of a tree, with and without checks.
* `HasType.type_steps` -- the type of a tree may be reduced.
* `HasType.unique` -- the types of a tree are convertible to each other.
-/

namespace Constructions

open Nameless

section

variable {checked : Prop} {G : List (String × Nameless)} {Δ : List Nameless}

/-! ## 1. Types of types -/

theorem HasType.codomain_inst {a A B C : Nameless} (hP : HasType checked G Δ (pi A B) C)
    (ha : HasType checked G Δ a A) : ∃ s, IsSort s ∧ HasType checked G Δ (B.inst a) s := by
  obtain ⟨_, s, _, hs, _, hB, _⟩ := hP.premises
  have hBa := hB.inst ha
  rw [hs.inst] at hBa
  exact ⟨s, hs, hBa⟩

/-- **What is the type of something is `□` or a type.** -/
theorem HasType.type_correct (hch : checked) {e A : Nameless} (h : HasType checked G Δ e A) :
    A = box ∨ ∃ s, IsSort s ∧ HasType checked G Δ A s := by
  induction h with
  | sort => exact .inl rfl
  | @bound G Δ n A s hn hs hA =>
    have hlt : n < Δ.length := (List.getElem?_eq_some_iff.mp hn).1
    exact .inr ⟨s, hs, (hA hch).weaken_drop hs (n + 1) hlt⟩
  | @declared G Δ x A s hx hc hs hA =>
    -- the declaration was checked without itself and outside all binders
    have hG : HasType checked G [] A s := by
      refine (hA hch).declare fun y B hy => ?_
      rw [Assoc.lookup_erase] at hy
      split at hy
      · cases hy
      · exact hy
    exact .inr ⟨s, hs, hG.weaken_closed hc hs Δ⟩
  | form h₁ h₂ hA hB =>
    rcases h₂ with rfl | rfl
    · exact .inr ⟨box, isSort_box, .sort⟩
    · exact .inl rfl
  | abst h₁ hs hA he hP => exact .inr ⟨_, hs, hP hch⟩
  | appl hf ha ihf =>
    rcases ihf with hbox | ⟨s, _, hP⟩
    · cases hbox
    · exact .inr (hP.codomain_inst ha)
  | conv hs he hc hB => exact .inr ⟨_, hs, hB hch⟩

/-! ## 2. Reduction -/

theorem HasType.function_type (hch : checked) {f A B : Nameless}
    (hf : HasType checked G Δ f (pi A B)) : ∃ s, HasType checked G Δ (pi A B) s := by
  rcases hf.type_correct hch with hbox | ⟨s, _, hP⟩
  · cases hbox
  · exact ⟨s, hP⟩

/-- The domain of a function is a type as far as that is checked. -/
theorem HasType.domain_declarable {f A B : Nameless} (hf : HasType checked G Δ f (pi A B)) :
    Declarable checked G Δ A := by
  refine .of_checked fun hch => ?_
  obtain ⟨_, hP⟩ := hf.function_type hch
  obtain ⟨s, _, hs, _, hA, _⟩ := hP.premises
  exact ⟨s, hs, hA⟩

/-- The codomain of a function, at an argument, is a type as far as that is checked. -/
theorem HasType.codomain_declarable {f a A B : Nameless} (hf : HasType checked G Δ f (pi A B))
    (ha : HasType checked G Δ a A) : Declarable checked G Δ (B.inst a) := by
  refine .of_checked fun hch => ?_
  obtain ⟨_, hP⟩ := hf.function_type hch
  exact hP.codomain_inst ha

theorem HasType.convert {e A B : Nameless} (h : HasType checked G Δ e A) (hc : Conv A B)
    (hB : Declarable checked G Δ B) : HasType checked G Δ e B := by
  obtain ⟨s, hs, hB⟩ := hB
  exact .conv hs h hc hB

/-- A redex has the type of its contraction. -/
theorem HasType.beta {A₀ e a A B : Nameless} (hf : HasType checked G Δ (lam A₀ e) (pi A B))
    (ha : HasType checked G Δ a A) : HasType checked G Δ (e.inst a) (B.inst a) := by
  obtain ⟨B₀, s, hs, hA₀, he, hc⟩ := hf.premises
  obtain ⟨hcA, hcB⟩ := hc.pi_inj
  have ha₀ : HasType checked G Δ a A₀ := ha.convert hcA.symm (hA₀.declarable hs)
  exact (he.inst ha₀).convert (hcB.inst a) (hf.codomain_declarable ha)

/-- **A contraction keeps the types of a tree.** -/
theorem HasType.step {e f A : Nameless} (h : HasType checked G Δ e A) (hs : Step e f) :
    HasType checked G Δ f A := by
  induction h generalizing f with
  | sort => nomatch hs
  | bound => nomatch hs
  | declared => nomatch hs
  | form h₁ h₂ hA hB ihA ihB =>
    cases hs with
    | piType _ hs =>
      have hA' := ihA hs
      exact .form h₁ h₂ hA' (hB.retype hs.conv (hA'.declarable h₁))
    | piBody _ hs => exact .form h₁ h₂ hA (ihB hs)
  | abst h₁ hsort hA he hP ihA ihe ihP =>
    cases hs with
    | lamType _ hs =>
      have hA' := ihA hs
      have hlam := HasType.abst h₁ hsort hA' (he.retype hs.conv (hA'.declarable h₁))
        fun hch => ihP hch (.piType _ hs)
      exact hlam.convert (Conv.pi hs.conv.symm (.refl _)) ⟨_, hsort, hP⟩
    | lamBody _ hs => exact .abst h₁ hsort hA (ihe hs) hP
  | appl hf ha ihf iha =>
    cases hs with
    | beta A₀ e a => exact hf.beta ha
    | appFun _ hs => exact .appl (ihf hs) ha
    | appArg _ hs =>
      have happ := HasType.appl hf (iha hs)
      exact happ.convert (Conv.inst_arg hs _).symm (hf.codomain_declarable ha)
  | conv hsort he hc hB ihe => exact .conv hsort (ihe hs) hc hB

theorem HasType.steps {e f A : Nameless} (h : HasType checked G Δ e A) (hs : Steps e f) :
    HasType checked G Δ f A := by
  induction hs with
  | refl => exact h
  | tail _ hs ih => exact ih.step hs

/-- The type of a tree may be reduced. -/
theorem HasType.type_steps {e A B : Nameless} (h : HasType checked G Δ e A) (hs : Steps A B) :
    HasType checked G Δ e B := by
  by_cases hch : checked
  · rcases h.type_correct hch with rfl | ⟨s, hsort, hA⟩
    · rwa [normal_box.eq_of_steps hs]
    · exact .conv hsort h hs.conv fun _ => hA.steps hs
  · exact .conv isSort_star h hs.conv fun hc => absurd hc hch

/-! ## 3. Uniqueness -/

/-- **The types of a tree are convertible to each other.** -/
theorem HasType.unique {e A B : Nameless} (hA : HasType checked G Δ e A)
    (hB : HasType checked G Δ e B) : Conv A B := by
  induction hA generalizing B with
  | sort => exact hB.premises
  | bound hn hs hA =>
    obtain ⟨A', hn', _, hc⟩ := hB.premises
    cases hn.symm.trans hn'
    exact hc
  | declared hx hc hs hA =>
    obtain ⟨A', hx', hc'⟩ := hB.premises
    cases hx.symm.trans hx'
    exact hc'
  | form h₁ h₂ hA hC ihA ihC =>
    obtain ⟨_, s, _, _, _, hC', hc⟩ := hB.premises
    exact (ihC hC').trans hc
  | abst h₁ hs hA he hP ihA ihe =>
    obtain ⟨C, _, _, _, he', hc⟩ := hB.premises
    exact (Conv.pi (.refl _) (ihe he')).trans hc
  | appl hf ha ihf =>
    obtain ⟨A', C, hf', _, hc⟩ := hB.premises
    exact ((ihf hf').pi_inj.2.inst _).trans hc
  | conv hs he hc hB' ihe => exact hc.symm.trans (ihe hB)

end

/-! ## 4. Valid declarations -/

/-- Declarations of closed types, each derived to be a type from those before it. -/
inductive Valid : List (String × Nameless) → Prop
  | nil : Valid []
  | snoc {G : List (String × Nameless)} {x : String} {A s : Nameless} (hG : Valid G)
      (hx : G.lookup x = none) (hc : A.Below 0) (hs : s.IsSort) (hA : HasType True G [] A s) :
      Valid (G ++ [(x, A)])

/-- The declaration of a name is checked by the declarations other than its own. -/
theorem Valid.declaration {G : List (String × Nameless)} (h : Valid G) {x : String} {A : Nameless}
    (hx : G.lookup x = some A) :
    A.Below 0 ∧ ∃ s, IsSort s ∧ HasType True (Assoc.erase x G) [] A s := by
  induction h generalizing x A with
  | nil => cases hx
  | @snoc G y B s hG hy hc hs hB ih =>
    -- all that `G` declares under another name than `x` stays declared
    have hkeep : ∀ z C, (Assoc.erase x G).lookup z = some C →
        (Assoc.erase x (G ++ [(y, B)])).lookup z = some C := by
      intro z C hz
      rw [Assoc.lookup_erase] at hz ⊢
      split at hz
      · cases hz
      · rename_i hne
        rw [if_neg hne, List.lookup_append, hz]
        rfl
    rw [List.lookup_append] at hx
    cases hGx : G.lookup x with
    | some A' =>
      rw [hGx] at hx
      cases hx
      obtain ⟨hcA, t, ht, hA⟩ := ih hGx
      exact ⟨hcA, t, ht, hA.declare hkeep⟩
    | none =>
      rw [hGx, Option.none_or, List.lookup_cons] at hx
      split at hx
      · cases hx
        refine ⟨hc, s, hs, hB.declare fun z C hz => hkeep z C ?_⟩
        rw [Assoc.lookup_erase, if_neg]
        · exact hz
        · rintro rfl
          rw [hGx] at hz
          cases hz
      · cases hx

end Constructions
