import Constructions.Proofs.Displayed
import Constructions.Proofs.Typing.Scope
import Constructions.Proofs.Typing.SubjectReduction

/-!
# Declarations

A variable is given the type of its declaration only after this type has been checked, and the check
runs where the occurrence stands: under the declarations and the binders around it, all in one
context that is keyed by name.  A binder can so lend its name to a declaration.

* `Expr.freeSites` -- the free occurrences, each with the binders around it.
* `Ctx.Reaches` -- the names on which the check of a declaration depends, the names that indices
  carry included.
* `derive_narrows` -- **only the names that are reached matter**: a derivation stays as it is when
  other declarations are dropped.
* `derive_freeSites` -- when an expression has a type, the declaration of every free occurrence
  passes its check under the binders around it, and without them when they change no declaration
  that is reached.
* `derive_lent` -- under `y : z`, the expression `λz : * . y` has a type and `y` has none.
-/

namespace Constructions

open Run Relation

/-! ## 1. Names of occurrences -/

namespace Expr

/-- The names that occurrences display, free or bound, in reading order: a context is asked for no
    others. -/
def occurring (e : Expr) : List String := e.shown fun _ => []

@[simp] theorem occurring_var (r : Ref) : (var r).occurring = [r.name] := rfl

@[simp] theorem occurring_pi (b : Binder) (A B : Expr) :
    (pi b A B).occurring = A.occurring ++ B.occurring := rfl

end Expr

/-! ## 2. Derivations under fewer declarations -/

/-- `Γ` has the declarations of `Δ` for the names in `P`, and nothing that disagrees with `Δ`; the
    declarations for names in `P` speak of names in `P` only. -/
structure Narrows (P : String → Prop) (Δ Γ : Ctx) : Prop where
  agrees : ∀ x, P x → Γ.get? x = Δ.get? x
  within : ∀ x D, Γ.get? x = some D → ∃ D', Δ.get? x = some D' ∧ D'.erase = D.erase
  closed : ∀ x D, P x → Δ.get? x = some D → ∀ y ∈ D.occurring, P y

namespace Narrows

variable {P : String → Prop} {Δ Γ : Ctx}

theorem without (h : Narrows P Δ Γ) (x : String) : Narrows P (Δ.without x) (Γ.without x) := by
  refine ⟨fun y hy => ?_, fun y D hD => ?_, fun y D hy hD => ?_⟩
  · rw [Ctx.get?_without, Ctx.get?_without, h.agrees y hy]
  · rw [Ctx.get?_without] at hD ⊢
    split at hD
    · cases hD
    · rename_i hne
      rw [if_neg hne]
      exact h.within y D hD
  · exact h.closed y D hy (Ctx.get?_of_without hD)

/-- A binder that the larger context takes is taken by the smaller one. -/
theorem enter (h : Narrows P Δ Γ) {b : Binder} {A : Expr} (hA : ∀ y ∈ A.occurring, P y) {Δ' : Ctx}
    (hΔ : Δ.enter b A = .ok Δ') : ∃ Γ', Γ.enter b A = .ok Γ' ∧ Narrows P Δ' Γ' := by
  cases b with
  | anonymous =>
    cases hΔ
    exact ⟨Γ, rfl, h⟩
  | named x =>
    have hput : Γ.put x A = .ok ⟨Assoc.put x A Γ.entries⟩ := by
      refine Ctx.put_of_agrees fun old hold => ?_
      obtain ⟨D, hD, heq⟩ := h.within x old hold
      exact Expr.alphaEq_iff.mpr (heq.symm.trans (Ctx.put_agrees hΔ hD))
    refine ⟨_, hput, fun y hy => ?_, fun y D hD => ?_, fun y D hy hD => ?_⟩
    · rw [Ctx.get?_of_put hput, Ctx.get?_of_put hΔ, h.agrees y hy]
    · rw [Ctx.get?_of_put hput] at hD
      rw [Ctx.get?_of_put hΔ]
      split at hD
      · rename_i heq
        exact ⟨A, if_pos heq, by rw [Option.some.inj hD]⟩
      · rename_i hne
        rw [if_neg hne]
        exact h.within y D hD
    · rw [Ctx.get?_of_put hΔ] at hD
      split at hD
      · cases hD
        exact hA
      · exact h.closed y D hy hD

end Narrows

/-- A check follows from the derivation it rests on. -/
theorem validate_of_derive {cap : Option Int} {fuel : Nat} {Δ Γ : Ctx} {e s : Expr}
    {accepted : List Expr} (h : (validate cap fuel Δ e accepted).Yields s)
    (hd : ∀ T, (derive cap fuel Δ e).Yields T → (derive cap fuel Γ e).Yields T) :
    (validate cap fuel Γ e accepted).Yields s := by
  simp only [validate, bind_eq, yields_andThen] at h ⊢
  obtain ⟨T, hT, hs⟩ := h
  exact ⟨T, hd T hT, hs⟩

/-- **A derivation depends only on the names that it can reach**, and its type speaks of them. -/
theorem derive_narrows {P : String → Prop} {cap : Option Int} {fuel : Nat} {Δ Γ : Ctx} {e T : Expr}
    (h : Narrows P Δ Γ) (he : ∀ y ∈ e.occurring, P y) (hT : (derive cap fuel Δ e).Yields T) :
    (derive cap fuel Γ e).Yields T ∧ ∀ y ∈ T.occurring, P y := by
  -- on the fuel: the declared types that are checked are no parts of `e`
  induction fuel generalizing Δ Γ e T with
  | zero => simp [derive] at hT
  | succ fuel ih =>
    have hvalidate {Δ Γ : Ctx} {e s : Expr} {accepted : List Expr} (h : Narrows P Δ Γ)
        (he : ∀ y ∈ e.occurring, P y) (hs : (validate cap fuel Δ e accepted).Yields s) :
        (validate cap fuel Γ e accepted).Yields s :=
      validate_of_derive hs fun T hT => (ih h he hT).1
    have hboth {A e : Expr} (he : ∀ y ∈ A.occurring ++ e.occurring, P y) :
        (∀ y ∈ A.occurring, P y) ∧ ∀ y ∈ e.occurring, P y := List.forall_mem_append.mp he
    cases e with
    | star =>
      cases derive_star.mp hT
      exact ⟨derive_star.mpr rfl, fun y hy => absurd hy List.not_mem_nil⟩
    | box => exact (not_derive_box hT).elim
    | unknown => exact (not_derive_unknown hT).elim
    | var r =>
      obtain ⟨D, s, D', hD, hs, hD', hnorm⟩ := derive_var.mp hT
      have hr : P r.name := he r.name List.mem_cons_self
      have hDP : ∀ y ∈ D.occurring, P y := h.closed r.name D hr hD
      refine ⟨derive_var.mpr ⟨D, s, D', (h.agrees _ hr).trans hD,
        hvalidate (h.without r.name) hDP hs, hD', hnorm⟩, fun y hy => ?_⟩
      have hy' : y ∈ D'.occurring := mem_shown_normalize hnorm hy
      rw [Expr.occurring, shown_typeAt hD'] at hy'
      exact hDP y hy'
    | lam b A body =>
      obtain ⟨hA, hbody⟩ := hboth he
      obtain ⟨Δ', B, s, hΔ, hB, hs, hnorm⟩ := derive_lam.mp hT
      obtain ⟨Γ', hΓ, h'⟩ := h.enter hA hΔ
      obtain ⟨hB', hBP⟩ := ih h' hbody hB
      have hpi : ∀ y ∈ (Expr.pi b A B).occurring, P y := by
        rw [Expr.occurring_pi]
        exact List.forall_mem_append.mpr ⟨hA, hBP⟩
      exact ⟨derive_lam.mpr ⟨Γ', B, s, hΓ, hB', hvalidate h hpi hs, hnorm⟩,
        fun y hy => hpi y (mem_shown_normalize hnorm hy)⟩
    | pi b A B =>
      obtain ⟨hA, hB⟩ := hboth he
      obtain ⟨s, Δ', hs, hΔ, hTB⟩ := derive_pi.mp hT
      obtain ⟨Γ', hΓ, h'⟩ := h.enter hA hΔ
      obtain ⟨S, hS, hnorm, _⟩ := validate_yields hTB
      exact ⟨derive_pi.mpr ⟨s, Γ', hvalidate h hA hs, hΓ, hvalidate h' hB hTB⟩,
        fun y hy => (ih h' hB hS).2 y (mem_shown_normalize hnorm hy)⟩
    | app f a =>
      obtain ⟨hf, ha⟩ := hboth he
      obtain ⟨F, b, A, B, s, hF, hP, hs, hnorm⟩ := derive_app.mp hT
      obtain ⟨hF', hFP⟩ := ih h hf hF
      have hpi : ∀ y ∈ (Expr.pi b A B).occurring, P y :=
        fun y hy => hFP y (mem_shown_normalize hP hy)
      refine ⟨derive_app.mpr ⟨F, b, A, B, s, hF', hP, hvalidate h ha hs, hnorm⟩, fun y hy => ?_⟩
      rcases Expr.mem_shown_substAt (mem_shown_normalize hnorm hy) with hy | hy
      · exact (hboth hpi).2 y hy
      · exact ha y hy

/-! ## 3. The binders around an occurrence -/

/-- The free occurrences in reading order, each with the binders around it, outermost first. -/
def Expr.freeSites : Expr → List (List (Binder × Expr) × String)
  | var (.free x) => [([], x)]
  | lam b A e => A.freeSites ++ e.freeSites.map fun (path, x) => ((b, A) :: path, x)
  | pi b A B => A.freeSites ++ B.freeSites.map fun (path, x) => ((b, A) :: path, x)
  | app f a => f.freeSites ++ a.freeSites
  | _ => []

/-- The free occurrences below a binder. -/
theorem Expr.mem_freeSites_binder {b : Binder} {A e : Expr} {path : List (Binder × Expr)}
    {x : String}
    (h : (path, x) ∈ A.freeSites ++ e.freeSites.map fun (path, x) => ((b, A) :: path, x)) :
    (path, x) ∈ A.freeSites ∨ ∃ path', path = (b, A) :: path' ∧ (path', x) ∈ e.freeSites := by
  refine (List.mem_append.mp h).imp id fun h => ?_
  obtain ⟨⟨path', x'⟩, hmem, heq⟩ := List.mem_map.mp h
  cases heq
  exact ⟨path', rfl, hmem⟩

namespace Ctx

/-- The context below several binders, outermost first. -/
def enterAll : Ctx → List (Binder × Expr) → Except Fault Ctx
  | Γ, [] => .ok Γ
  | Γ, (b, A) :: path => do (← Γ.enter b A).enterAll path

theorem enterAll_cons {Γ Δ : Ctx} {b : Binder} {A : Expr} {path : List (Binder × Expr)} :
    Γ.enterAll ((b, A) :: path) = .ok Δ ↔
      ∃ Γ', Γ.enter b A = .ok Γ' ∧ Γ'.enterAll path = .ok Δ := by
  rw [enterAll]
  cases Γ.enter b A with
  | error x => simp [bind, Except.bind]
  | ok Γ' => simp [bind, Except.bind]

/-- Binders entered in turn are a scope. -/
theorem tracks_enterAll {Γ₀ Γ Δ : Ctx} {S : Scope} {path : List (Binder × Expr)}
    (h : Tracks Γ₀ S Γ) (hΔ : Γ.enterAll path = .ok Δ) : Tracks Γ₀ (path.reverse ++ S) Δ := by
  induction path generalizing Γ S with
  | nil =>
    cases hΔ
    exact h
  | cons d path ih =>
    obtain ⟨b, A⟩ := d
    obtain ⟨Γ', hΓ, hΔ⟩ := enterAll_cons.mp hΔ
    rw [List.reverse_cons, List.append_assoc]
    exact ih (h.enter hΓ) hΔ

/-- A name that the binders leave alone, or declare as it is, keeps its declaration. -/
theorem get?_enterAll {Γ Δ : Ctx} {path : List (Binder × Expr)} (hΔ : Γ.enterAll path = .ok Δ)
    {x : String} (hx : ∀ A, (.named x, A) ∈ path → Γ.get? x = some A) :
    Δ.get? x = Γ.get? x := by
  induction path generalizing Γ with
  | nil =>
    cases hΔ
    rfl
  | cons d path ih =>
    obtain ⟨b, A⟩ := d
    obtain ⟨Γ', hΓ, hΔ⟩ := enterAll_cons.mp hΔ
    have hstep : Γ'.get? x = Γ.get? x := by
      cases b with
      | anonymous =>
        cases hΓ
        rfl
      | named y =>
        rw [Ctx.get?_of_put hΓ]
        split
        · rename_i heq
          subst heq
          exact (hx A List.mem_cons_self).symm
        · rfl
    rw [ih hΔ fun B hB => hstep.trans (hx B (List.mem_cons_of_mem _ hB)), hstep]

/-- The declaration of `x` speaks of `y`. -/
def Mentions (Γ : Ctx) (x y : String) : Prop := ∃ D, Γ.get? x = some D ∧ y ∈ D.occurring

/-- `y` is `x`, or the declaration of `x` speaks of it, or that of such a name, and so on. -/
def Reaches (Γ : Ctx) : String → String → Prop := ReflTransGen Γ.Mentions

/-- A set that no declaration leads out of holds all that is reached from within. -/
theorem Reaches.mem {Γ : Ctx} {P : String → Prop} (hP : ∀ y z, P y → Γ.Mentions y z → P z)
    {x y : String} (hx : P x) (h : Γ.Reaches x y) : P y := by
  induction h with
  | refl => exact hx
  | tail _ hm ih => exact hP _ _ ih hm

/-- Without binders that change a declaration it reaches, a name finds what it needs. -/
theorem narrows_enterAll {Γ Δ : Ctx} {path : List (Binder × Expr)} (hΔ : Γ.enterAll path = .ok Δ)
    {x : String} (hpath : ∀ y A, (.named y, A) ∈ path → Γ.Reaches x y → Γ.get? y = some A) :
    Narrows (Γ.Reaches x) Δ Γ where
  agrees y hy := (get?_enterAll hΔ fun A hA => hpath y A hA hy).symm
  within := (tracks_enterAll (.start Γ) hΔ).declared
  closed y D hy hD z hz := by
    rw [get?_enterAll hΔ fun A hA => hpath y A hA hy] at hD
    exact hy.tail ⟨D, hD, hz⟩

end Ctx

/-- The binders `path` can be declared in turn, and then `x` has a type. -/
def TypesBelow (cap : Option Int) (Γ : Ctx) (path : List (Binder × Expr)) (x : String) : Prop :=
  ∃ Δ fuel U, Γ.enterAll path = .ok Δ ∧ (derive cap fuel Δ (.var (.free x))).Yields U

theorem TypesBelow.cons {cap : Option Int} {Γ Δ : Ctx} {b : Binder} {A : Expr}
    {path : List (Binder × Expr)} {x : String} (hΔ : Γ.enter b A = .ok Δ)
    (h : TypesBelow cap Δ path x) : TypesBelow cap Γ ((b, A) :: path) x := by
  obtain ⟨Δ', fuel, U, hΔ', hU⟩ := h
  exact ⟨Δ', fuel, U, Ctx.enterAll_cons.mpr ⟨Δ, hΔ, hΔ'⟩, hU⟩

/-- A derivation that ends has typed every free occurrence below the binders around it. -/
theorem derive_typesBelow {cap : Option Int} {fuel : Nat} {Γ : Ctx} {e T : Expr}
    (h : (derive cap fuel Γ e).Yields T) {path : List (Binder × Expr)} {x : String}
    (hx : (path, x) ∈ e.freeSites) : TypesBelow cap Γ path x := by
  induction e generalizing fuel Γ T path with
  | var r =>
    cases r with
    | free y =>
      cases List.mem_singleton.mp hx
      exact ⟨Γ, fuel, T, rfl, h⟩
    | bound i => cases hx
  | lam b A body ihA ihe =>
    obtain ⟨fuel, rfl⟩ := exists_fuel h
    obtain ⟨Δ, B, s, hΔ, hB, hs, _⟩ := derive_lam.mp h
    rcases Expr.mem_freeSites_binder hx with hmem | ⟨path', rfl, hmem⟩
    · obtain ⟨⟨_, _, hA⟩, _⟩ := validate_pi hs
      obtain ⟨U, hU, _⟩ := validate_sorts_yields hA
      exact ihA hU hmem
    · exact .cons hΔ (ihe hB hmem)
  | pi b A B ihA ihB =>
    obtain ⟨fuel, rfl⟩ := exists_fuel h
    obtain ⟨s, Δ, hA, hΔ, hB⟩ := derive_pi.mp h
    rcases Expr.mem_freeSites_binder hx with hmem | ⟨path', rfl, hmem⟩
    · obtain ⟨U, hU, _⟩ := validate_sorts_yields hA
      exact ihA hU hmem
    · obtain ⟨V, hV, _⟩ := validate_sorts_yields hB
      exact .cons hΔ (ihB hV hmem)
  | app f a ihf iha =>
    obtain ⟨fuel, rfl⟩ := exists_fuel h
    obtain ⟨F, b, A, B, s, hF, _, ha, _⟩ := derive_app.mp h
    rcases List.mem_append.mp hx with hx | hx
    · exact ihf hF hx
    · obtain ⟨U, hU, _⟩ := validate_yields ha
      exact iha hU hx
  | star => cases hx
  | box => cases hx
  | unknown => cases hx

/-- **Declarations are checked under the binders around the occurrence.**  When `e` has a type, the
    binders around a free occurrence of `x` can be declared on top of `Γ`, and then `x` has a type.
    It has this type under `Γ` alone if every one of these binders whose name the declaration of `x`
    reaches repeats the declaration of `Γ`; and `x` is declared in `Γ` if none has the name `x`. -/
theorem derive_freeSites {cap : Option Int} {fuel : Nat} {Γ : Ctx} {e T : Expr}
    (h : (derive cap fuel Γ e).Yields T) {path : List (Binder × Expr)} {x : String}
    (hx : (path, x) ∈ e.freeSites) :
    ∃ Δ fuel' U, Γ.enterAll path = .ok Δ ∧ (derive cap fuel' Δ (.var (.free x))).Yields U
      ∧ ((∀ A, (.named x, A) ∉ path) → Γ.contains x = true)
      ∧ ((∀ y A, (.named y, A) ∈ path → Γ.Reaches x y → Γ.get? y = some A) →
          (derive cap fuel' Γ (.var (.free x))).Yields U) := by
  obtain ⟨Δ, fuel', U, hΔ, hU⟩ := derive_typesBelow h hx
  refine ⟨Δ, fuel', U, hΔ, hU, fun hpath => ?_, fun hpath => ?_⟩
  · obtain ⟨n, rfl⟩ := exists_fuel hU
    obtain ⟨D, _, _, hD, _⟩ := derive_var.mp hU
    rw [Ref.name, Ctx.get?_enterAll hΔ fun A hA => absurd hA (hpath A)] at hD
    rw [Ctx.contains, hD, Option.isSome_some]
  · have hreached : ∀ y ∈ (Expr.var (.free x)).occurring, Γ.Reaches x y := by
      intro y hy
      cases List.mem_singleton.mp hy
      exact .refl
    exact (derive_narrows (Ctx.narrows_enterAll hΔ hpath) hreached hU).1

/-- The declarations `N : *`, `n : N` and `f : N -> N`. -/
def Ctx.endo : Ctx :=
  ⟨Ctx.point.entries ++ [("f", .arrow (.var (.free "N")) (.var (.free "N")))]⟩

/-- What `f` reaches there is `f` and `N`. -/
theorem Ctx.endo_reaches {y : String} (h : Ctx.endo.Reaches "f" y) : y ∈ ["f", "N"] := by
  refine h.mem (P := (· ∈ ["f", "N"])) (fun y z hy hm => ?_) (by decide)
  obtain ⟨D, hD, hz⟩ := hm
  simp only [List.mem_cons, List.not_mem_nil, or_false] at hy
  rcases hy with rfl | rfl
  · cases hD
    revert hz
    simp +contextual [Expr.arrow, Expr.shiftBy, Ref.name]
  · cases hD
    cases hz

/-- In `λN : * . λx : N . f n` the outer binder repeats a declaration that `f` reaches, and the
    inner one is not reached. -/
theorem derive_freeSites_endo :
    let e : Expr := .abs (.named "N") .star
      (.abs (.named "x") (.var (.free "N")) (.app (.var (.free "f")) (.var (.free "n"))))
    let path : List (Binder × Expr) :=
      [(.named "N", .star), (.named "x", .var (.bound ⟨0, "N"⟩))]
    (∃ T, (derive (some 9) 9 .endo e).Yields T) ∧ (path, "f") ∈ e.freeSites
      ∧ Ctx.endo.contains "f" = true
      ∧ ∃ Δ fuel U, Ctx.endo.enterAll path = .ok Δ
          ∧ (derive (some 9) fuel Δ (.var (.free "f"))).Yields U
          ∧ (derive (some 9) fuel .endo (.var (.free "f"))).Yields U := by
  intro e path
  have hT : ∃ T, (derive (some 9) 9 .endo e).Yields T := ⟨_, _, rfl⟩
  have hf : (path, "f") ∈ e.freeSites := by decide
  obtain ⟨T, h⟩ := hT
  obtain ⟨Δ, fuel, U, hΔ, hU, hdecl, hsame⟩ := derive_freeSites h hf
  refine ⟨⟨T, h⟩, hf, hdecl (by simp [path]), Δ, fuel, U, hΔ, hU, hsame fun y A hA hy => ?_⟩
  have hy' := Ctx.endo_reaches hy
  simp only [path, List.mem_cons, List.not_mem_nil, or_false, Prod.mk.injEq,
    Binder.named.injEq] at hA
  rcases hA with ⟨rfl, rfl⟩ | ⟨rfl, rfl⟩
  · rfl
  · exact absurd hy' (by decide)

/-! ## 4. Names that are lent -/

/-- The declaration `y : z`. -/
def Ctx.lent : Ctx := ⟨[("y", .var (.free "z"))]⟩

/-- `λx : P . (λy : P . λQ : * . λw : * . λx : Q . y) x`. -/
def Expr.shadowing : Expr :=
  .abs (.named "x") (.var (.free "P"))
    (.app (.abs (.named "y") (.var (.free "P")) (.abs (.named "Q") .star (.abs (.named "w") .star
      (.abs (.named "x") (.var (.free "Q")) (.var (.free "y")))))) (.var (.free "x")))

/-- What `shadowing` reduces to, `λx : P . λQ : * . λw : * . λx : Q . x` with the outer `x`. -/
def Expr.shadowed : Expr :=
  .lam (.named "x") (.var (.free "P")) (.lam (.named "Q") .star (.lam (.named "w") .star
    (.lam (.named "x") (.var (.bound ⟨1, "Q"⟩)) (.var (.bound ⟨3, "x"⟩)))))

/-- `(λk : (ΠP : * . P -> P) . N) (λP : * . λa : P . shadowed a N N n)`.  The two binders `x` of
    `shadowed` share an entry, so that the type of the argument is displayed as
    `ΠP : * . Πa : P . Q`, and `Q` is asked for where it is out of scope. -/
def Expr.displaced : Expr :=
  .app (.abs (.named "k") (.all (.named "P") .star (.arrow (.var (.free "P")) (.var (.free "P"))))
      (.var (.free "N")))
    (.abs (.named "P") .star (.abs (.named "a") (.var (.free "P"))
      (.apps .shadowed [.var (.free "a"), .var (.free "N"), .var (.free "N"), .var (.free "n")])))

/-- The declarations `N : *`, `n : N` and `y : displaced`. -/
def Ctx.displaced : Ctx := ⟨Ctx.point.entries ++ [("y", .displaced)]⟩

/-- **A binder lends its name to a declaration.**  Under `y : z`, the expression `λz : * . y` has a
    type and `y` has none.  The same happens with a name that is only displayed: under
    `y : displaced`, the expression `λQ : * . y` has a type and `y` has none, although `Q` is free
    in no declaration. -/
theorem derive_lent :
    let y : Expr := .var (.free "y")
    (Ctx.lent.IsBuilt ∧ (Expr.abs (.named "z") .star y).Built
        ∧ (derive (some 9) 9 .lent (.abs (.named "z") .star y)).Yields
            (.pi (.named "z") .star (.var (.free "z")))
        ∧ "y" ∈ (Expr.abs (.named "z") .star y).freeNames
        ∧ ∀ cap fuel T, ¬ (derive cap fuel .lent y).Yields T)
      ∧ (reduce 9 9 Expr.shadowing).Yields .shadowed
        ∧ (derive (some 9) 30 .displaced (.abs (.named "Q") .star y)).Yields
            (.pi (.named "Q") .star (.var (.free "N")))
        ∧ (∀ D ∈ Ctx.displaced.entries, "Q" ∉ D.2.freeNames)
        ∧ ∀ fuel T, ¬ (derive (some 9) fuel .displaced y).Yields T := by
  intro y
  refine ⟨⟨fun x D hD => ?_, .abs "z" .star (.name "y"), ⟨_, rfl⟩, by decide,
    fun cap fuel T => ?_⟩, ⟨_, rfl⟩, ⟨_, rfl⟩, by decide, fun fuel T => ?_⟩
  · simp only [Ctx.lent, Ctx.get?, List.lookup_cons, List.lookup_nil] at hD
    split at hD
    · cases hD
      exact .name "z"
    · cases hD
  · have hfault : derive cap 2 .lent y = .done [] (.error (.typing (.unknownVariable "z"))) := rfl
    exact not_yields_of_fault hfault fuel T
  · have hfault : ∃ events, derive (some 9) 30 .displaced y
        = .done events (.error (.typing (.unknownVariable "Q"))) := ⟨_, rfl⟩
    obtain ⟨events, hfault⟩ := hfault
    exact not_yields_of_fault hfault fuel T

end Constructions
