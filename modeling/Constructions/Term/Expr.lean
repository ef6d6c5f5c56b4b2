import Constructions.Term.Index

/-!
# Expressions

The terms of the Calculus of Constructions: the sorts `*` and `□`, variables, the binders λ and Π,
and application.

* `Expr` -- the trees; `Expr.unknown` is a node of no known form, which no rule types.
* `Expr.alphaEq` -- equality up to displayed names.
* `Expr.index` -- resolves the free occurrences of a name to an index.
* `Expr.abs`, `Expr.all` -- a λ and a Π whose body is resolved on the spot.
-/

namespace Constructions

/-- Terms and types, in one syntactic class. -/
inductive Expr
  /-- A variable occurrence. -/
  | var (r : Ref)
  /-- `λx : A . e` -/
  | lam (b : Binder) (A e : Expr)
  /-- `Πx : A . B` -/
  | pi (b : Binder) (A B : Expr)
  /-- `f a` -/
  | app (f a : Expr)
  /-- The sort `*` of types. -/
  | star
  /-- The sort `□` of kinds. -/
  | box
  /-- A node of no known form. -/
  | unknown
deriving DecidableEq, Repr, Inhabited

namespace Expr

/-! ## 1. Shape -/

/-- A λ or a Π. -/
def isBinder : Expr → Bool
  | lam .. | pi .. => true
  | _ => false

/-- A λ or a Π with the anonymous binder. -/
def isAnonymous : Expr → Bool
  | lam .anonymous _ _ | pi .anonymous _ _ => true
  | _ => false

/-- `*` or `□`. -/
def isSort : Expr → Bool
  | star | box => true
  | _ => false

/-- The parameter type of a binder, the function of an application. -/
def first? : Expr → Option Expr
  | lam _ A _ | pi _ A _ => some A
  | app f _ => some f
  | _ => none

/-- The body of a binder, the argument of an application. -/
def second? : Expr → Option Expr
  | lam _ _ e | pi _ _ e => some e
  | app _ a => some a
  | _ => none

/-! ## 2. Equality up to names -/

/-- Two trees are equal when they have the same form and the same occurrences; the names of binders
    and of bound occurrences take no part. -/
def alphaEq : Expr → Expr → Bool
  | var r, var s => r.same s
  | lam _ A e, lam _ B f => A.alphaEq B && e.alphaEq f
  | pi _ A e, pi _ B f => A.alphaEq B && e.alphaEq f
  | app f a, app g b => f.alphaEq g && a.alphaEq b
  | star, star => true
  | box, box => true
  | unknown, unknown => true
  | _, _ => false

@[simp] theorem alphaEq_refl (e : Expr) : e.alphaEq e = true := by
  induction e with
  | var r => simp [alphaEq]
  | lam b A e ihA ihe => simp [alphaEq, ihA, ihe]
  | pi b A B ihA ihB => simp [alphaEq, ihA, ihB]
  | app f a ihf iha => simp [alphaEq, ihf, iha]
  | star => rfl
  | box => rfl
  | unknown => rfl

theorem alphaEq_symm {e f : Expr} (h : e.alphaEq f = true) : f.alphaEq e = true := by
  induction e generalizing f with
  | var r =>
    cases f <;> simp only [alphaEq, Bool.false_eq_true] at h ⊢
    exact Ref.same_symm h
  | lam b A e ihA ihe =>
    cases f <;> simp only [alphaEq, Bool.and_eq_true, Bool.false_eq_true] at h ⊢
    exact ⟨ihA h.1, ihe h.2⟩
  | pi b A B ihA ihB =>
    cases f <;> simp only [alphaEq, Bool.and_eq_true, Bool.false_eq_true] at h ⊢
    exact ⟨ihA h.1, ihB h.2⟩
  | app g a ihg iha =>
    cases f <;> simp only [alphaEq, Bool.and_eq_true, Bool.false_eq_true] at h ⊢
    exact ⟨ihg h.1, iha h.2⟩
  | star => cases f <;> simp_all [alphaEq]
  | box => cases f <;> simp_all [alphaEq]
  | unknown => cases f <;> simp_all [alphaEq]

theorem alphaEq_trans {e f g : Expr} (h : e.alphaEq f = true) (k : f.alphaEq g = true) :
    e.alphaEq g = true := by
  induction e generalizing f g with
  | var r =>
    cases f <;> simp only [alphaEq, Bool.false_eq_true] at h
    cases g <;> simp only [alphaEq, Bool.false_eq_true] at k ⊢
    exact Ref.same_trans h k
  | lam b A e ihA ihe =>
    cases f <;> simp only [alphaEq, Bool.and_eq_true, Bool.false_eq_true] at h
    cases g <;> simp only [alphaEq, Bool.and_eq_true, Bool.false_eq_true] at k ⊢
    exact ⟨ihA h.1 k.1, ihe h.2 k.2⟩
  | pi b A B ihA ihB =>
    cases f <;> simp only [alphaEq, Bool.and_eq_true, Bool.false_eq_true] at h
    cases g <;> simp only [alphaEq, Bool.and_eq_true, Bool.false_eq_true] at k ⊢
    exact ⟨ihA h.1 k.1, ihB h.2 k.2⟩
  | app f' a ihf iha =>
    cases f <;> simp only [alphaEq, Bool.and_eq_true, Bool.false_eq_true] at h
    cases g <;> simp only [alphaEq, Bool.and_eq_true, Bool.false_eq_true] at k ⊢
    exact ⟨ihf h.1 k.1, iha h.2 k.2⟩
  | star => cases f <;> simp_all [alphaEq]
  | box => cases f <;> simp_all [alphaEq]
  | unknown => cases f <;> simp_all [alphaEq]

/-! ## 3. Resolving names -/

/-- Turns the free occurrences of `i.name` into `i`, one deeper under each binder.  A binder of the
    same name keeps its body for itself; its parameter type stands outside and is resolved. -/
def index (i : Idx) : Expr → Expr
  | var (.free x) => if x = i.name then var (.bound i) else var (.free x)
  | var (.bound j) => var (.bound j)
  | lam b A e => lam b (A.index i) (if b.captures i.name then e else e.index i.inc)
  | pi b A e => pi b (A.index i) (if b.captures i.name then e else e.index i.inc)
  | app f a => app (f.index i) (a.index i)
  | star => star
  | box => box
  | unknown => unknown

/-- `λb : A . e` in which `b` binds its own free occurrences in `e`. -/
def abs (b : Binder) (A e : Expr) : Expr := lam b A (e.index (.innermost b.name))

/-- `Πb : A . e` in which `b` binds its own free occurrences in `e`. -/
def all (b : Binder) (A e : Expr) : Expr := pi b A (e.index (.innermost b.name))

/-- An application to several arguments, from the left. -/
def apps (f : Expr) (args : List Expr) : Expr := args.foldl app f

end Expr

end Constructions
