import Constructions.Proofs.Nameless.Fill
import Constructions.Proofs.Named.Basic

/-!
# Terms with names, built as expressions

`Named.build` applies the constructors of expressions to a term, from the inside out.

* `build_alphaEq_iff` -- equality of what is built is α-equivalence of the terms.
* `pass_build_substitutes` -- a pass over a built redex builds the result of the capture-avoiding
  substitution.

Both go through `Named.image`, the tree that is left of what is built.  There a binder resolves its
name (`image_bind`), a substitution fills one (`image_substitutes`), and what is left to see is that
fillings commute.
-/

namespace Constructions

/-- The binder of a tree. -/
def Quantifier.node : Quantifier → Nameless → Nameless → Nameless
  | lam => Nameless.lam
  | pi => Nameless.pi

namespace Named

/-! ## 1. Building -/

/-- The term as an expression, by the constructors of expressions. -/
def build : Named → Expr
  | var x => .var (.free x)
  | bind .lam x A t => Expr.abs (.named x) A.build t.build
  | bind .pi x A t => Expr.all (.named x) A.build t.build
  | arrow A B => Expr.arrow A.build B.build
  | app t s => .app t.build s.build
  | star => .star
  | box => .box

theorem built_build (t : Named) : t.build.Built := by
  induction t with
  | var x => exact .name x
  | bind q x A t ihA iht =>
    cases q with
    | lam => exact .abs x ihA iht
    | pi => exact .all x ihA iht
  | arrow A B ihA ihB => exact .arrow ihA ihB
  | app t s iht ihs => exact .app iht ihs
  | star => exact .star
  | box => exact .box

/-- The tree of what is built. -/
def image (t : Named) : Nameless := t.build.erase

theorem below_image (t : Named) : t.image.Below 0 := (built_build t).coherent.below

/-- What is built is closed: it reads the same further in. -/
theorem lift_image (t : Named) : t.image.lift = t.image :=
  Nameless.rename_of_closed Nat.succ (below_image t)

theorem image_index (t : Named) (x : String) :
    (t.build.index (.innermost x)).erase = t.image.fill x (.idx 0) :=
  Expr.erase_index (built_build t).unshadowed 0 x

theorem image_bind (q : Quantifier) (x : String) (A t : Named) :
    (bind q x A t).image = q.node A.image (t.image.fill x (.idx 0)) := by
  cases q with
  | lam => exact congrArg (Nameless.lam A.image) (image_index t x)
  | pi => exact congrArg (Nameless.pi A.image) (image_index t x)

theorem image_arrow (A B : Named) : (arrow A B).image = .pi A.image B.image := by
  have hbody : (B.build.shiftBy 1 0).erase = B.image.liftN 1 := Expr.erase_shiftBy_zero 1 B.build
  exact congrArg (Nameless.pi A.image) (hbody.trans (lift_image B))

theorem image_app (t s : Named) : (app t s).image = .app t.image s.image := rfl

/-- The names of the tree are names of the term. -/
theorem names_image {t : Named} {y : String} (h : y ∈ t.image.names) : y ∈ t.free := by
  induction t with
  | var x => exact h
  | bind q x A t ihA iht =>
    have hparts : y ∈ A.image.names ∨ y ∈ (t.image.fill x (.idx 0)).names := by
      rw [image_bind] at h
      cases q <;> exact List.mem_append.mp h
    rw [mem_free_bind]
    rcases hparts with hA | ht
    · exact .inl (ihA hA)
    · rcases Nameless.mem_names_fill ht with ⟨ht, hy⟩ | hidx
      · exact .inr ⟨iht ht, hy⟩
      · cases hidx
  | arrow A B ihA ihB =>
    rw [image_arrow] at h
    exact List.mem_append.mpr ((List.mem_append.mp h).imp ihA ihB)
  | app t s iht ihs => exact List.mem_append.mpr ((List.mem_append.mp h).imp iht ihs)
  | star => exact h
  | box => exact h

theorem not_mem_names_image {t : Named} {y : String} (h : y ∉ t.free) : y ∉ t.image.names :=
  fun hy => h (names_image hy)

/-! ## 2. Substitution -/

/-- A binder filled at a name other than those it binds. -/
theorem fill_node (q : Quantifier) (x : String) (P Q s : Nameless) :
    (q.node P Q).fill x s = q.node (P.fill x s) (Q.fill x s.lift) := by
  cases q <;> rfl

/-- **A substitution fills the name.** -/
theorem image_substitutes {x : String} {s t r : Named} (h : Substitutes x s t r) :
    r.image = t.image.fill x s.image := by
  have hidx {x : String} : x ∉ (Nameless.idx 0).names := List.not_mem_nil
  induction h with
  | here => exact (Nameless.fill_const_self _ _).symm
  | other hy => exact (Nameless.fill_const_of_ne hy _).symm
  | @bound x y s A A' t q ht hA ihA =>
    have hx : x ∉ (t.image.fill y (.idx 0)).names := by
      intro hmem
      rcases Nameless.mem_names_fill hmem with ⟨hmem, hxy⟩ | hmem
      · rcases ht with hy | ht
        · exact hxy hy.symm
        · exact ht (names_image hmem)
      · exact hidx hmem
    rw [image_bind, image_bind, fill_node, ihA, Nameless.fill_of_not_mem hx]
  | @under x y s A A' t t' q hy hs hA ht ihA iht =>
    rw [image_bind, image_bind, fill_node, ihA, iht, lift_image,
      Nameless.fill_comm hy.symm (not_mem_names_image hs) hidx]
  | @renamed x y z s A A' t u t' q hz hs hzt hA hu ht ihA ihu iht =>
    have hbody : t'.image.fill z (.idx 0) = (t.image.fill y (.idx 0)).fill x s.image :=
      calc t'.image.fill z (.idx 0)
          = ((t.image.fill y (.const z)).fill x s.image).fill z (.idx 0) := by rw [iht, ihu]; rfl
        _ = ((t.image.fill y (.const z)).fill z (.idx 0)).fill x s.image :=
          Nameless.fill_comm hz.symm (not_mem_names_image hs) hidx _
        _ = (t.image.fill y (.idx 0)).fill x s.image := by
          rw [Nameless.fill_fill y (not_mem_names_image hzt)]
    rw [image_bind, image_bind, fill_node, ihA, lift_image, hbody]
  | arrow hA hB ihA ihB =>
    rw [image_arrow, image_arrow, ihA, ihB, Nameless.fill, lift_image]
  | app ht hu iht ihu => rw [image_app, image_app, iht, ihu, Nameless.fill]
  | star => rfl
  | box => rfl

/-- **A pass over a redex of built terms builds the result of the substitution**, whichever fresh
    names the substitution takes; and there is such a result. -/
theorem pass_build_substitutes (x : String) (T t s : Named) :
    (∃ r, Substitutes x s t r) ∧
      ∀ r, Substitutes x s t r →
        (Expr.app (Expr.abs (.named x) T.build t.build) s.build).pass.alphaEq r.build = true := by
  refine ⟨exists_substitutes x s t, fun r h => ?_⟩
  rw [Expr.alphaEq_iff]
  calc ((t.build.index (.innermost x)).instantiate s.build).erase
      = (t.build.index (.innermost x)).erase.inst s.image := Expr.erase_instantiate _ _
    _ = (t.image.fill x (.idx 0)).inst s.image := by rw [image_index]
    _ = t.image.fill x s.image := Nameless.inst_fill (below_image t) x s.image
    _ = r.image := (image_substitutes h).symm

/-- `λy : A . x y` with `y` for `x`: the binder gives way, and the result is not `λy : A . y y`. -/
theorem pass_build_substitutes_capture :
    Substitutes "x" (var "y") (bind .lam "y" (var "A") (app (var "x") (var "y")))
        (bind .lam "z" (var "A") (app (var "y") (var "z"))) ∧
      (Expr.app (Expr.abs (.named "x") star.build
          (bind .lam "y" (var "A") (app (var "x") (var "y"))).build) (var "y").build).pass.alphaEq
        (bind .lam "z" (var "A") (app (var "y") (var "z"))).build = true ∧
      (bind .lam "z" (var "A") (app (var "y") (var "z"))).build.alphaEq
        (bind .lam "y" (var "A") (app (var "y") (var "y"))).build = false := by
  have hr : Substitutes "x" (var "y") (bind .lam "y" (var "A") (app (var "x") (var "y")))
      (bind .lam "z" (var "A") (app (var "y") (var "z"))) :=
    .renamed .lam (by decide) (by decide) (by decide) (.other (by decide))
      (.app (.other (by decide)) .here) (.app .here (.other (by decide)))
  exact ⟨hr, (pass_build_substitutes "x" star _ (var "y")).2 _ hr, by decide⟩

/-! ## 3. α-equivalence -/

/-- α-equivalent terms leave the same tree. -/
theorem Alpha.image_eq {t u : Named} (h : Alpha t u) : t.image = u.image := by
  induction h with
  | refl t => rfl
  | symm _ ih => exact ih.symm
  | trans _ _ ih ih' => exact ih.trans ih'
  | @rename x y A t t' q hy ht =>
    have hbody : t'.image.fill y (.idx 0) = t.image.fill x (.idx 0) := by
      rw [image_substitutes ht]
      exact Nameless.fill_fill x (not_mem_names_image hy) _
    rw [image_bind, image_bind, hbody]
  | arrowPi hy =>
    rw [image_arrow, image_bind, Nameless.fill_of_not_mem (not_mem_names_image hy)]
    rfl
  | bind q x _ _ ihA iht => rw [image_bind, image_bind, ihA, iht]
  | arrow _ _ ihA ihB => rw [image_arrow, image_arrow, ihA, ihB]
  | app _ _ iht ihs => rw [image_app, image_app, iht, ihs]

theorem node_inj {q q' : Quantifier} {P P' Q Q' : Nameless} (h : q.node P Q = q'.node P' Q') :
    q = q' ∧ P = P' ∧ Q = Q' := by
  cases q <;> cases q' <;> cases h <;> exact ⟨rfl, rfl, rfl⟩

/-- A term whose tree is a binder is α-equivalent to that binder with any fresh name; the parts
    have no more nodes than before. -/
theorem exists_alpha_bind {t : Named} {q : Quantifier} {P Q : Nameless} (h : t.image = q.node P Q)
    {z : String} (hz : z ∉ t.free) :
    ∃ A s, Alpha t (bind q z A s) ∧ A.image = P ∧ s.image.fill z (.idx 0) = Q ∧
      A.size < t.size ∧ s.size < t.size := by
  cases t with
  | bind q' x A s =>
    rw [image_bind] at h
    obtain ⟨rfl, hP, hQ⟩ := node_inj h
    by_cases hx : z = x
    · subst hx
      exact ⟨A, s, .refl _, hP, hQ, by simp only [size]; omega, by simp only [size]; omega⟩
    · have hzs : z ∉ s.free := not_mem_free_body hz hx
      obtain ⟨r, hr⟩ := exists_substitutes x (var z) s
      have hsize : r.size = s.size := hr.size_eq rfl
      refine ⟨A, r, .rename q' hzs hr, hP, ?_, by simp only [size]; omega,
        by simp only [size]; omega⟩
      rw [image_substitutes hr, ← hQ]
      exact Nameless.fill_fill x (not_mem_names_image hzs) _
  | arrow A B =>
    rw [image_arrow] at h
    obtain ⟨rfl, hP, hQ⟩ := node_inj (q := .pi) h
    have hzB : z ∉ B.free := fun hB => hz (List.mem_append.mpr (.inr hB))
    refine ⟨A, B, .arrowPi hzB, hP, ?_, by simp only [size]; omega, by simp only [size]; omega⟩
    rw [Nameless.fill_of_not_mem (not_mem_names_image hzB), hQ]
  | var x => cases q <;> cases h
  | app t s => cases q <;> cases h
  | star => cases q <;> cases h
  | box => cases q <;> cases h

/-- Resolving a name loses nothing: its instance at the name gives the body back. -/
theorem image_eq_of_fill_eq {t u : Named} {z : String}
    (h : t.image.fill z (.idx 0) = u.image.fill z (.idx 0)) : t.image = u.image := by
  have hinst (t : Named) : (t.image.fill z (.idx 0)).inst (.const z) = t.image := by
    rw [Nameless.inst_fill (below_image t), Nameless.fill_self]
  rw [← hinst t, h, hinst u]

/-- Two binders that leave the same tree take one fresh name, and then their parts compare. -/
theorem alpha_of_binder {t u : Named} {q : Quantifier} {P Q : Nameless} (ht : t.image = q.node P Q)
    (hu : u.image = q.node P Q)
    (ih : ∀ t' u' : Named, t'.size < t.size → t'.image = u'.image → Alpha t' u') : Alpha t u := by
  obtain ⟨z, hz⟩ := exists_fresh (t.free ++ u.free)
  rw [List.mem_append, not_or] at hz
  obtain ⟨A, s, hA, hP, hQ, hltA, hlts⟩ := exists_alpha_bind ht hz.1
  obtain ⟨A', s', hA', hP', hQ', -⟩ := exists_alpha_bind hu hz.2
  have hparts : Alpha (bind q z A s) (bind q z A' s') :=
    .bind q z (ih A A' hltA (hP.trans hP'.symm))
      (ih s s' hlts (image_eq_of_fill_eq (hQ.trans hQ'.symm)))
  exact (hA.trans hparts).trans hA'.symm

/-- Terms that leave the same tree are α-equivalent. -/
theorem alpha_of_image_eq (t u : Named) : t.image = u.image → Alpha t u := by
  -- by recursion on the size: the parts of a renamed binder are no parts of the term
  cases t with
  | bind q x A s =>
    intro h
    have ht := image_bind q x A s
    exact alpha_of_binder ht (h.symm.trans ht) fun t' u' hlt => alpha_of_image_eq t' u'
  | arrow A B =>
    intro h
    have ht : (arrow A B).image = Quantifier.pi.node A.image B.image := image_arrow A B
    exact alpha_of_binder ht (h.symm.trans ht) fun t' u' hlt => alpha_of_image_eq t' u'
  | app f a =>
    cases u with
    | app g b =>
      intro h
      injection h with hf ha
      exact .app (alpha_of_image_eq f g hf) (alpha_of_image_eq a b ha)
    | bind q x A s => cases q <;> exact nofun
    | _ => exact nofun
  | var x =>
    cases u with
    | var y =>
      intro h
      injection h with hxy
      exact hxy ▸ .refl _
    | bind q x A s => cases q <;> exact nofun
    | _ => exact nofun
  | star =>
    cases u with
    | star => exact fun _ => .refl _
    | bind q x A s => cases q <;> exact nofun
    | _ => exact nofun
  | box =>
    cases u with
    | box => exact fun _ => .refl _
    | bind q x A s => cases q <;> exact nofun
    | _ => exact nofun
termination_by t.size
decreasing_by
  · exact hlt
  · exact hlt
  all_goals simp only [size]; omega

/-- **Equality of what is built is α-equivalence.** -/
theorem build_alphaEq_iff (t u : Named) : t.build.alphaEq u.build = true ↔ Alpha t u := by
  rw [Expr.alphaEq_iff]
  exact ⟨alpha_of_image_eq t u, Alpha.image_eq⟩

end Named

end Constructions
