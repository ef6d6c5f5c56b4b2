import Constructions.Typing.Run

/-!
# The log

* `Severity` -- the levels that records have; `levelNumber?` -- those by which a threshold is set.
* `Line` -- what is to be written on a channel; `Record` -- what the log then has.
* `Line.write` -- the records of lines that pass a threshold, in order.
* `Event.line?` -- the line for an event of a run.
-/

namespace Constructions

/-! ## 1. Levels -/

/-- The levels that records have. -/
inductive Severity
  | debug
  | warning
deriving DecidableEq, Repr

/-- The number of a level. -/
def Severity.number : Severity → Nat
  | debug => 10
  | warning => 30

/-- The name of a level. -/
def Severity.name : Severity → String
  | debug => "DEBUG"
  | warning => "WARNING"

/-- The names by which a threshold is set, with their numbers. -/
def levelNames : List (String × Nat) :=
  [("CRITICAL", 50), ("FATAL", 50), ("ERROR", 40), ("WARN", 30), ("WARNING", 30), ("INFO", 20),
    ("DEBUG", 10), ("NOTSET", 0)]

/-- The number of a named level. -/
def levelNumber? (name : String) : Option Nat := levelNames.lookup name

/-- Whether a record of this severity passes a threshold.  A threshold of zero is not set, and then
    warnings pass. -/
def Severity.passes (s : Severity) (threshold : Nat) : Bool :=
  (if threshold = 0 then Severity.warning.number else threshold) ≤ s.number

/-! ## 2. Records -/

/-- The parts of the program that write to the log. -/
inductive Channel
  | config
  | reduction
  | judgement
deriving DecidableEq, Repr

/-- A line for the log.  It has no text if what it has to show cannot be put into words. -/
structure Line where
  channel : Channel
  severity : Severity
  text? : Option String
deriving DecidableEq, Repr

/-- A line in the log. -/
structure Record where
  channel : Channel
  severity : Severity
  text : String
deriving DecidableEq, Repr

/-- The records of lines that pass a threshold, up to the first of them that cannot be put into
    words, and whether there was none such.  A line that does not pass is not put into words. -/
def Line.write (threshold : Nat) : List Line → List Record × Bool
  | [] => ([], true)
  | l :: rest =>
    if !l.severity.passes threshold then write threshold rest
    else
      match l.text? with
      | some text =>
        let (records, whole) := write threshold rest
        (⟨l.channel, l.severity, text⟩ :: records, whole)
      | none => ([], false)

/-! ## 3. Events -/

/-- A judgement as the log shows it. -/
def judgementLine (rule : String) (subject : Option String) (T : Expr) : Line where
  channel := .judgement
  severity := .debug
  text? := do return rule ++ " " ++ (← subject) ++ " : " ++ (← T.render)

/-- The line for an event; asking for the step cap is not logged. -/
def Event.line? : Event → Option Line
  | .capRead => none
  | .reduced e steps =>
    some ⟨.reduction, .debug,
      e.render.map fun text => "reduced " ++ text ++ " in " ++ toString steps ++ " step(s)"⟩
  | .gaveUp e steps =>
    some ⟨.reduction, .warning,
      e.render.map fun text =>
        "giving up on " ++ text ++ " after " ++ toString steps ++ " reduction steps"⟩
  | .var x T => some (judgementLine "var" x T)
  | .abst e T => some (judgementLine "abst" e.render T)
  | .form e s => some (judgementLine "form" e.render s)
  | .appl e T => some (judgementLine "appl" e.render T)

end Constructions
