import Constructions.Typing.Normalize

/-!
# The judgement `Γ ⊢ e : T`

Types are derived in one pass over the term, by the rules of the Calculus of Constructions.

    (Sort)  Γ ⊢ * : □

    (Var)   x : A in Γ,  Γ without x ⊢ A : s          (Form)  Γ ⊢ A : s₁,  Γ, x : A ⊢ B : s₂
            ------------------------------------              ------------------------------
            Γ ⊢ x : A                                         Γ ⊢ Πx : A . B : s₂

    (Abst)  Γ, x : A ⊢ e : B,  Γ ⊢ Πx : A . B : s     (Appl)  Γ ⊢ f : Πx : A . B,  Γ ⊢ a : A
            -------------------------------------             ------------------------------
            Γ ⊢ λx : A . e : Πx : A . B                       Γ ⊢ f a : B with a for x

Types are compared by the expressions that passes settle on.

* `derive` -- the type of an expression.
* `validate` -- the type of an expression, which must be one of those accepted.

Both take the step cap of the configuration and fuel; what they note and in which order is part of
their meaning.
-/

namespace Constructions

/-- The sorts, as the types that a type may have. -/
def sorts : List Expr := [.star, .box]

/-- Looks for the first accepted type that settles on `actual`. -/
def matchAccepted (cap : Option Int) (fuel : Nat) (actual : Expr) : List Expr → Run Bool
  | [] => return false
  | T :: rest => do
    let T ← normalize cap fuel T
    if actual.alphaEq T then return true else matchAccepted cap fuel actual rest

/-- Requires that `T`, the type derived for `e`, is one of those accepted; answers what `T` settles
    on. -/
def expect (cap : Option Int) (fuel : Nat) (e : Expr) (accepted : List Expr) (T : Expr) :
    Run Expr := do
  let actual ← normalize cap fuel T
  if ← matchAccepted cap fuel actual accepted then return actual
  else .fail (.incompatible e actual accepted)

/-- The type of a variable occurrence: its declaration, moved from outside the binder to where the
    occurrence stands. -/
def typeAt (r : Ref) (T : Expr) : Except Underflow Expr :=
  match r with
  | .free _ => .ok T
  | .bound i => T.shift (i.depth + 1) 0

/-- The type of `e` under `Γ`. -/
def derive (cap : Option Int) : Nat → Ctx → Expr → Run Expr
  | 0, _, _ => .starved
  | fuel + 1, Γ, e =>
    match e with
    | .star => return .box
    | .box => .fail (.typing (.undefinedType ⟨.box, rfl⟩))
    | .var r => do
      let T ← .ofTyping (Γ.get r.name)
      let s ← derive cap fuel (Γ.without r.name) T
      let _ ← expect cap fuel T sorts s
      let T ← .ofShift (typeAt r T)
      .note (.var r.name T)
      normalize cap fuel T
    | .lam b A body => do
      let Δ ← .ofTyping (Γ.enter b A)
      let B ← derive cap fuel Δ body
      let s ← derive cap fuel Γ (.pi b A B)
      let _ ← expect cap fuel (.pi b A B) sorts s
      .note (.abst (.lam b A body) (.pi b A B))
      normalize cap fuel (.pi b A B)
    | .pi b A B => do
      let s ← derive cap fuel Γ A
      let _ ← expect cap fuel A sorts s
      let Δ ← .ofTyping (Γ.enter b A)
      let s ← derive cap fuel Δ B
      let s ← expect cap fuel B sorts s
      .note (.form (.pi b A B) s)
      return s
    | .app f a => do
      let F ← derive cap fuel Γ f
      match ← normalize cap fuel F with
      | .pi _ A B =>
        let T ← derive cap fuel Γ a
        let _ ← expect cap fuel a [A] T
        let T ← normalize cap fuel (B.instantiate a)
        .note (.appl (.app f a) T)
        return T
      | F => .fail (.notFunction f F)
    | .unknown => .fail (.typing .noRule)

/-- The type of `e` under `Γ`, as the expression it settles on, if it is one of those accepted. -/
def validate (cap : Option Int) (fuel : Nat) (Γ : Ctx) (e : Expr) (accepted : List Expr) :
    Run Expr := do
  let T ← derive cap fuel Γ e
  expect cap fuel e accepted T

end Constructions
