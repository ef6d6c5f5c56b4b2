import Constructions.Context
import Constructions.Proofs.Nameless.Leaves

/-!
# Expressions of known form

A node of no known form has no text, and a fault that would have to show one is another fault.

* `Expr.Known` -- every node is of a known form; `isSome_render_iff` -- **an expression has a text
  exactly when it is of known form**; `known_iff_every` -- names play no part in this.
* `Fault.Reports` -- a fault is a cause, if this can be put into words; `redeclaration_reports`,
  `incompatible_reports`, `notFunction_reports`, `reductionLimit_reports` -- each fault that shows
  expressions is one.
-/

namespace Constructions

open Nameless

/-! ## 1. Texts -/

namespace Expr

/-- Every node is of a known form. -/
def Known (e : Expr) : Prop := .unknown ∉ e.parts

instance (e : Expr) : Decidable e.Known := inferInstanceAs (Decidable (.unknown ∉ e.parts))

theorem known_node {e A B : Expr} (he : e ≠ .unknown) :
    .unknown ∉ e :: (A.parts ++ B.parts) ↔ A.Known ∧ B.Known := by
  rw [mem_parts_node, not_or, not_or]
  exact and_iff_right he.symm

theorem isSome_fmt_iff {e : Expr} (left arg : Bool) :
    (e.fmt left arg).isSome = true ↔ e.Known := by
  induction e generalizing left arg with
  | lam b A e ihA ihe | pi b A e ihA ihe =>
    rw [Known, parts, known_node Expr.noConfusion, ← ihA false false, ← ihe false false, fmt]
    cases A.fmt false false <;> cases e.fmt false false <;> simp
  | app f a ihf iha =>
    rw [Known, parts, known_node Expr.noConfusion, ← ihf true false, ← iha (left && !arg) true, fmt]
    cases f.fmt true false <;> cases a.fmt (left && !arg) true <;> simp
  | _ => simp [fmt, Known, parts]

/-- **An expression has a text exactly when every node is of a known form.** -/
theorem isSome_render_iff {e : Expr} : e.render.isSome = true ↔ e.Known :=
  isSome_fmt_iff false false

/-- An expression of known form, with its text. -/
def Known.rendered {e : Expr} (h : e.Known) : Rendered := ⟨e, isSome_render_iff.mpr h⟩

@[simp] theorem rendered?_known {e : Expr} (h : e.Known) : e.rendered? = some h.rendered :=
  dif_pos (isSome_render_iff.mpr h)

theorem rendered?_unknown {e : Expr} (h : ¬ e.Known) : e.rendered? = none :=
  dif_neg (mt isSome_render_iff.mp h)

theorem mapM_rendered?_known {es : List Expr} (h : ∀ e ∈ es, e.Known) :
    es.mapM rendered? = some (es.pmap (fun _ he => he.rendered) h) := by
  induction es with
  | nil => rfl
  | cons e rest ih =>
    obtain ⟨he, hrest⟩ := List.forall_mem_cons.mp h
    simp [List.mapM_cons, he, ih hrest]

theorem mapM_rendered?_unknown {es : List Expr} (h : ¬ ∀ e ∈ es, e.Known) :
    es.mapM rendered? = none := by
  induction es with
  | nil => exact absurd (fun _ he => absurd he List.not_mem_nil) h
  | cons e rest ih =>
    by_cases he : e.Known
    · have hrest : ¬ ∀ e ∈ rest, e.Known := fun hrest =>
        h (List.forall_mem_cons.mpr ⟨he, hrest⟩)
      simp [List.mapM_cons, he, ih hrest]
    · simp [List.mapM_cons, rendered?_unknown he]

/-- An expression is of known form exactly when its tree without names is. -/
theorem known_iff_every {e : Expr} : e.Known ↔ e.erase.Every (· ≠ .unknown) :=
  not_mem_parts_iff_every trivial

end Expr

/-- Every declared type is of known form. -/
def Ctx.Known (Γ : Ctx) : Prop := ∀ x D, Γ.get? x = some D → D.Known

/-! ## 2. Faults -/

namespace Fault

/-- The fault is a cause that shows expressions of known form; where they are not, it is that a node
    has no parts. -/
def Reports {known : Prop} (cause : known → TypingError) (x : Fault) : Prop :=
  (∃ h, x = .typing (cause h)) ∨ ¬ known ∧ x = .noPart

namespace Reports

variable {known : Prop} {cause : known → TypingError} {x y : Fault}

theorem eq_typing (hx : x.Reports cause) (h : known) : x = .typing (cause h) := by
  rcases hx with ⟨_, hx⟩ | ⟨hnot, _⟩
  · exact hx
  · exact absurd h hnot

theorem eq_noPart (hx : x.Reports cause) (h : ¬ known) : x = .noPart := by
  rcases hx with ⟨h', _⟩ | ⟨_, hx⟩
  · exact absurd h' h
  · exact hx

theorem ne_noPart (hx : x.Reports cause) (h : known) : x ≠ .noPart := by
  rw [hx.eq_typing h]
  exact Fault.noConfusion

theorem typing_or_noPart (hx : x.Reports cause) : (∃ t, x = .typing t) ∨ x = .noPart :=
  hx.imp (fun ⟨h, hx⟩ => ⟨cause h, hx⟩) fun hx => hx.2

/-- Only one fault reports a cause. -/
theorem iff_eq (hy : y.Reports cause) : x.Reports cause ↔ x = y := by
  constructor
  · intro hx
    by_cases h : known
    · rw [hx.eq_typing h, hy.eq_typing h]
    · rw [hx.eq_noPart h, hy.eq_noPart h]
  · rintro rfl
    exact hy

end Reports

theorem redeclaration_reports (x : String) (T U : Expr) :
    (redeclaration x T U).Reports
      fun h : T.Known ∧ U.Known => .redeclaration x h.1.rendered h.2.rendered := by
  by_cases hT : T.Known <;> by_cases hU : U.Known <;>
    simp [redeclaration, Reports, ofCause, Expr.rendered?_unknown, hT, hU]

theorem notFunction_reports (f T : Expr) :
    (notFunction f T).Reports
      fun h : f.Known ∧ T.Known => .notFunction h.1.rendered h.2.rendered := by
  by_cases hf : f.Known <;> by_cases hT : T.Known <;>
    simp [notFunction, Reports, ofCause, Expr.rendered?_unknown, hf, hT]

theorem reductionLimit_reports (e : Expr) (cap : Int) :
    (reductionLimit e cap).Reports fun he : e.Known => .reductionLimit he.rendered cap := by
  by_cases he : e.Known <;>
    simp [reductionLimit, Reports, ofCause, Expr.rendered?_unknown, he]

theorem incompatible_reports (e T : Expr) (accepted : List Expr) :
    (incompatible e T accepted).Reports
      fun h : (e.Known ∧ T.Known) ∧ ∀ A ∈ accepted, A.Known =>
        .incompatible h.1.1.rendered h.1.2.rendered
          (accepted.pmap (fun _ hA => hA.rendered) h.2) none := by
  by_cases he : e.Known
  · by_cases hT : T.Known
    · by_cases hA : ∀ A ∈ accepted, A.Known
      · refine .inl ⟨⟨⟨he, hT⟩, hA⟩, ?_⟩
        simp [incompatible, ofCause, Expr.mapM_rendered?_known hA, he, hT]
      · refine .inr ⟨fun h => hA h.2, ?_⟩
        simp [incompatible, ofCause, Expr.mapM_rendered?_unknown hA, he, hT]
    · refine .inr ⟨fun h => hT h.1.2, ?_⟩
      simp [incompatible, ofCause, Expr.rendered?_unknown hT, he]
  · refine .inr ⟨fun h => he h.1.1, ?_⟩
    simp [incompatible, ofCause, Expr.rendered?_unknown he]

end Fault

end Constructions
