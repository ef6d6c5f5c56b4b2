import Constructions.Json.Render
import Constructions.Term.Render

/-!
# Typing errors

The ways in which a judgement fails, each with the expressions it is about.

* `TypingError` -- the causes.
* `TypingError.kind`, `message`, `details` -- how a cause is reported.
* `TypingError.toJson`, `text` -- the report as a JSON object and as one line.
* `Fault` -- what stops the kernel: a cause, or that a cause could not be reported, among others.
-/

namespace Constructions

/-! ## 1. Causes -/

/-- The kinds under which causes are reported. -/
inductive ErrorKind
  | generic
  | redeclaration
  | unknownVariable
  | incompatible
  | undefinedType
  | reductionLimit
deriving DecidableEq, Repr

/-- The reported name of a kind. -/
def ErrorKind.name : ErrorKind → String
  | generic => "generic"
  | redeclaration => "type_redeclaration"
  | unknownVariable => "unknown_variable"
  | incompatible => "type_incompatibility"
  | undefinedType => "undefined_type"
  | reductionLimit => "reduction_limit"

/-- Why a judgement failed.  A cause is put into words when it comes up, and so is about expressions
    that have a text. -/
inductive TypingError
  /-- A failure that is described by its text alone. -/
  | other (text : String) (facts : List (String × Json))
  /-- No rule is about this form of node. -/
  | noRule
  /-- `x` has type `T` and was to be declared with the different type `U`. -/
  | redeclaration (x : String) (T U : Rendered)
  /-- `x` is not declared. -/
  | unknownVariable (x : String)
  /-- `e` has type `T`, which is none of those accepted; `text` replaces the usual message. -/
  | incompatible (e T : Rendered) (accepted : List Rendered) (text : Option String)
  /-- `f` has type `T` and was to be applied, but `T` is no Π. -/
  | notFunction (f T : Rendered)
  /-- `e` has no type. -/
  | undefinedType (e : Rendered)
  /-- `e` was still changing after `cap` passes. -/
  | reductionLimit (e : Rendered) (cap : Int)
deriving Repr

namespace TypingError

/-! ## 2. Reports -/

/-- The kind of a cause. -/
def kind : TypingError → ErrorKind
  | other .. | noRule => .generic
  | redeclaration .. => .redeclaration
  | unknownVariable _ => .unknownVariable
  | incompatible .. | notFunction .. => .incompatible
  | undefinedType _ => .undefinedType
  | reductionLimit .. => .reductionLimit

/-- The text of a failure that says nothing else. -/
def defaultMessage : String := "generic typing error"

/-- The message of a cause. -/
def message : TypingError → String
  | other text _ => text
  | noRule => "Cannot derive a type for Exp(kind=None, ref=None, binder=None, children=())"
  | redeclaration x T U =>
    "Variable '" ++ x ++ "' has type " ++ T.text ++ ", cannot redeclare it as " ++ U.text
  | unknownVariable x => "Variable '" ++ x ++ "' has no type in the current context"
  | incompatible _ _ _ (some text) => text
  | incompatible e T [] none =>
    e.text ++ " has type " ++ T.text ++ ", which does not have the requisite form"
  | incompatible e T accepted none =>
    e.text ++ " has type " ++ T.text ++ ", expected one of \x7b"
      ++ ", ".intercalate (accepted.map Rendered.text) ++ "\x7d"
  | notFunction f T =>
    f.text ++ " has type " ++ T.text ++ ", which is not a Π type and cannot be applied"
  | undefinedType e => e.text ++ " does not have a type"
  | reductionLimit e cap =>
    e.text ++ " did not reach normal form within " ++ toString cap ++ " reduction steps"

/-- The facts about a type that was not accepted. -/
def incompatibleDetails (e T : Rendered) (accepted : List Rendered) : List (String × Json) :=
  [("expression", .str e.text), ("actual_type", .str T.text),
    ("accepted_types", .arr (accepted.map fun A => .str A.text))]

/-- The facts of a cause, by name. -/
def details : TypingError → List (String × Json)
  | other _ facts => facts
  | noRule => []
  | redeclaration x T U =>
    [("variable", .str x), ("declared_type", .str T.text), ("new_type", .str U.text)]
  | unknownVariable x => [("variable", .str x)]
  | incompatible e T accepted _ => incompatibleDetails e T accepted
  | notFunction f T => incompatibleDetails f T []
  | undefinedType e => [("expression", .str e.text)]
  | reductionLimit e cap => [("expression", .str e.text), ("steps", .int cap)]

/-- The report as a JSON object: kind and message, and the facts where there are any. -/
def toJson (x : TypingError) : Json :=
  .obj ([("kind", .str x.kind.name), ("message", .str x.message)]
    ++ if x.details.isEmpty then [] else [("details", .obj x.details)])

/-- The report as the text of that object. -/
def render (x : TypingError) (layout : Json.Layout) : String := x.toJson.render layout

/-- The report on one line. -/
def text (x : TypingError) : String := "[" ++ x.kind.name ++ "]: " ++ x.message

end TypingError

/-! ## 3. Faults -/

/-- What stops the kernel. -/
inductive Fault
  /-- A judgement failed. -/
  | typing (x : TypingError)
  /-- A node without parts was asked for one. -/
  | noPart
  /-- A type could not be moved to the place of its variable. -/
  | underflow (u : Underflow)
  /-- The configuration, asked for the step cap, could not be loaded. -/
  | noCap
deriving Repr

namespace Fault

/-- The fault of a cause, which is another one where the cause cannot be put into words. -/
def ofCause : Option TypingError → Fault
  | some x => typing x
  | none => noPart

/-- `x` has type `T` and was to be declared with the different type `U`. -/
def redeclaration (x : String) (T U : Expr) : Fault :=
  ofCause do return .redeclaration x (← T.rendered?) (← U.rendered?)

/-- `e` has type `T`, which is none of those accepted. -/
def incompatible (e T : Expr) (accepted : List Expr) : Fault :=
  ofCause do
    return .incompatible (← e.rendered?) (← T.rendered?) (← accepted.mapM Expr.rendered?) none

/-- `f` has type `T` and was to be applied, but `T` is no Π. -/
def notFunction (f T : Expr) : Fault :=
  ofCause do return .notFunction (← f.rendered?) (← T.rendered?)

/-- `e` was still changing after `cap` passes. -/
def reductionLimit (e : Expr) (cap : Int) : Fault :=
  ofCause do return .reductionLimit (← e.rendered?) cap

end Fault

end Constructions
