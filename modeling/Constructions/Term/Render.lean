import Constructions.Term.Expr

/-!
# Rendering

The concrete form of an expression: `λx : A . e`, `Πx : A . B`, `f a`, `*`, `□`.  Application
associates to the left; a binder's body reaches as far to the right as it can.

* `Expr.fmt` -- the text at a place in an application.
* `Expr.render` -- the text of a whole expression.
* `Rendered` -- an expression that has a text; `Expr.rendered?` -- makes one, where there is a text.
-/

namespace Constructions

namespace Expr

/-- Puts a text in parentheses where `b` holds. -/
def parenthesize (b : Bool) (t : String) : String := if b then "(" ++ t ++ ")" else t

/-- The text of a binder node from the text of its parts. -/
def binderText (mark : String) (b : Binder) (A e : String) : String :=
  mark ++ b.name ++ " : " ++ A ++ " . " ++ e

/-- The text of an expression.  `left` says that more of an enclosing application follows on the
    right, so that a binder must be closed; `arg` says that it stands as an argument, so that an
    application must be closed.  A node of no known form is taken for an application and has not the
    parts of one, so that there is no text. -/
def fmt : Bool → Bool → Expr → Option String
  | _, _, var r => some r.name
  | _, _, star => some "*"
  | _, _, box => some "□"
  | left, _, lam b A e => do
    let A ← A.fmt false false
    let e ← e.fmt false false
    return parenthesize left (binderText "λ" b A e)
  | left, _, pi b A B => do
    let A ← A.fmt false false
    let B ← B.fmt false false
    return parenthesize left (binderText "Π" b A B)
  | left, arg, app f a => do
    let f ← f.fmt true false
    let a ← a.fmt (left && !arg) true
    return parenthesize arg (f ++ " " ++ a)
  | _, _, unknown => none

/-- The text of an expression on its own. -/
def render (e : Expr) : Option String := e.fmt false false

end Expr

/-- An expression that has a text. -/
structure Rendered where
  expr : Expr
  isSome : expr.render.isSome = true
deriving Repr

/-- The text of an expression that has one. -/
def Rendered.text (e : Rendered) : String := e.expr.render.get e.isSome

/-- The expression with its text, if it has one. -/
def Expr.rendered? (e : Expr) : Option Rendered :=
  if h : e.render.isSome = true then some ⟨e, h⟩ else none

end Constructions
