import Constructions.Config.Load
import Constructions.Typing.Derive

/-!
# Sessions

A session works on one directory tree, with expressions and contexts kept by name, a log, and a
configuration that is loaded when it is first asked for.  The log puts a line into words as it is
written, and the operation that writes a line which cannot be put into words fails there.

* `Session` -- the state; `Session.Failure` -- what stops an operation.
* `SessionM` -- operations.  One that fails keeps what it did to the state before.
* `SessionM.withCap` -- runs a computation with the configured step cap, and logs what it noted.
* `SessionM.activeConfig`, `setConfig`, `configureLogging` -- the configuration in force.
-/

namespace Constructions

/-! ## 1. State -/

/-- The state of a session. -/
structure Session where
  exprs : List (String × Expr) := []
  /-- The contexts, each with the names that share it: a change through one shows through all. -/
  contexts : List (List String × Ctx) := []
  /-- The configuration in force, `none` before it is loaded. -/
  config : Option Config := some {}
  /-- The log level, zero if it was never set. -/
  threshold : Nat := 0
  tree : Tree := .empty
  cwd : Path := []
  /-- The records since the log was last taken. -/
  log : List Record := []

namespace Session

/-- What stops an operation. -/
inductive Failure
  /-- Nothing is kept by this name. -/
  | noRegister (name : String)
  /-- A run of the kernel ended with a fault. -/
  | fault (x : Fault)
  /-- There is no log level of this name. -/
  | unknownLevel (name : String)
  /-- The configuration could not be loaded. -/
  | load (x : Config.LoadFault)
deriving Repr

/-- The text of a failure. -/
def Failure.message : Failure → String
  | noRegister name => name
  | fault (.typing x) => x.message
  | fault (.underflow u) => u.message
  | fault .noPart => "tuple index out of range"
  | fault .noCap => ""
  | unknownLevel name => "Unknown level: " ++ Text.quoted name
  | load x => x.message

/-- The fuel of every run, more than any run can use up. -/
def fuel : Nat := 0x1000000000000000

/-- A context that an operation works on: one of its own, or the one kept by a name. -/
inductive Held
  | own (Γ : Ctx)
  | shared (name : String)

/-- The context kept by a name. -/
def context? (s : Session) (name : String) : Option Ctx :=
  (s.contexts.find? (·.1.contains name)).map (·.2)

/-- Takes a name away from the context that it stands for. -/
def forget (s : Session) (name : String) : Session :=
  { s with contexts := s.contexts.map fun (names, Γ) => (names.filter (· ≠ name), Γ) }

/-- Keeps a context by a name of its own. -/
def keepOwn (s : Session) (name : String) (Γ : Ctx) : Session :=
  let s := s.forget name
  { s with contexts := ([name], Γ) :: s.contexts }

/-- Lets `name` share the context that is kept by `other`. -/
def share (s : Session) (name other : String) : Session :=
  if name = other then s
  else
    let s := s.forget name
    { s with contexts := s.contexts.map fun (names, Γ) =>
        (if names.contains other then name :: names else names, Γ) }

/-- Changes the context kept by a name, for all that share it. -/
def updateContext (s : Session) (name : String) (Γ : Ctx) : Session :=
  { s with contexts := s.contexts.map fun (names, old) =>
      (names, if names.contains name then Γ else old) }

/-- What reading a configuration leaves in the log, and how it ended.  The value that a warning
    shows may be one that cannot be shown, and then it is the log that fails. -/
def report (s : Session) (found : Config.Reading Config.LoadFault) :
    List Record × Except Config.LoadFault Config :=
  let (records, whole) := Line.write s.threshold (found.ignored.map (·.line))
  (records, if whole then found.outcome else .error (.entry .unshowable))

/-- The configuration of the tree, from the current directory upward. -/
def loadConfig (s : Session) : List Record × Except Config.LoadFault Config :=
  s.report (Config.loadNearest s.tree s.cwd)

end Session

/-! ## 2. Operations -/

/-- An operation on a session; `none` if a run needed more fuel. -/
abbrev SessionM := ExceptT Session.Failure (StateT Session Option)

namespace SessionM

open Session

variable {α : Type}

/-- Adds records to the log. -/
def log (records : List Record) : SessionM Unit :=
  modify fun s => { s with log := s.log ++ records }

/-- Writes the lines for events to the log, where an expression may have no text. -/
def logEvents (events : List Event) : SessionM Unit := do
  let (records, whole) := Line.write (← get).threshold (events.filterMap Event.line?)
  log records
  unless whole do throw (.fault .noPart)

/-- The records since the log was last taken. -/
def takeLog : SessionM (List Record) := do
  let s ← get
  set { s with log := [] }
  return s.log

/-- A judgement on contexts. -/
def ofTyping : Except Fault α → SessionM α
  | .ok a => return a
  | .error x => throw (.fault x)

/-- A move of indices. -/
def ofShift : Except Underflow α → SessionM α
  | .ok a => return a
  | .error u => throw (.fault (.underflow u))

/-- A part of a node, or what is made of its parts. -/
def ofPart : Option α → SessionM α
  | some a => return a
  | none => throw (.fault .noPart)

/-! ### Expressions and contexts by name -/

/-- The expression kept by a name. -/
def expr (name : String) : SessionM Expr := do
  match (← get).exprs.lookup name with
  | some e => return e
  | none => throw (.noRegister name)

/-- Keeps an expression by a name, if one is given. -/
def keepExpr (name : Option String) (e : Expr) : SessionM Unit :=
  match name with
  | some name => modify fun s => { s with exprs := Assoc.put name e s.exprs }
  | none => return ()

/-- Finds the context kept by a name. -/
def contextNamed (name : String) : SessionM Held := do
  if ((← get).context? name).isSome then return .shared name else throw (.noRegister name)

/-- The context that an operation works on. -/
def context : Held → SessionM Ctx
  | .own Γ => return Γ
  | .shared name => do
    match (← get).context? name with
    | some Γ => return Γ
    | none => throw (.noRegister name)

/-- Keeps a context by a name, if one is given; one that is kept already is shared. -/
def keepContext (name : Option String) (h : Held) : SessionM Unit :=
  match name, h with
  | some name, .own Γ => modify (·.keepOwn name Γ)
  | some name, .shared other => modify (·.share name other)
  | none, _ => return ()

/-- Declares `x : T` in a context, for all that share it. -/
def put (h : Held) (x : String) (T : Expr) : SessionM Held := do
  let Γ ← ofTyping ((← context h).put x T)
  match h with
  | .own _ => return .own Γ
  | .shared name => do
    modify (·.updateContext name Γ)
    return h

/-! ### Configuration -/

/-- A configuration that was loaded, its records going to the log. -/
def loaded : List Record × Except Config.LoadFault Config → SessionM Config
  | (records, outcome) => do
    log records
    match outcome with
    | .ok c => return c
    | .error x => throw (.load x)

/-- Puts a configuration in force; `none` has it loaded at the next use. -/
def setConfig (c : Option Config) : SessionM Unit := modify fun s => { s with config := c }

/-- The configuration in force, loaded if need be.  Loading that fails is tried again next time. -/
def activeConfig : SessionM Config := do
  let s ← get
  match s.config with
  | some c => return c
  | none =>
    let c ← loaded s.loadConfig
    setConfig (some c)
    return c

/-- Loads a configuration without putting it in force: of the file named `name`, or of the nearest
    one from `start` upward. -/
def load (name : Option String) (start : String) : SessionM Config := do
  let s ← get
  loaded (s.report (match name with
    | some name => Config.loadNamed s.tree s.cwd name
    | none => Config.loadNearest s.tree (Path.resolve s.cwd start)))

/-- Sets the log level of a configuration, by default of the one in force; answers its number. -/
def configureLogging (c : Option Config) : SessionM Nat := do
  let c ← match c with
    | some c => pure c
    | none => activeConfig
  match levelNumber? c.logLevel with
  | some n =>
    modify fun s => { s with threshold := n }
    return n
  | none => throw (.unknownLevel c.logLevel)

/-! ### Runs -/

/-- What a run noted and how it ended; it must have been given fuel enough. -/
def finished : Run α → SessionM (List Event × Except Fault α)
  | .done events outcome => return (events, outcome)
  | .starved => fun _ => none

/-- The outcome of a run. -/
def outcome : Except Fault α → SessionM α
  | .ok a => return a
  | .error x => throw (.fault x)

/-- Runs a computation that may ask for the step cap.  The configuration is loaded if it has to be,
    at the point where it is first asked for; it then stays in force. -/
def withCap (run : Option Int → Run α) : SessionM α := do
  let s ← get
  match s.config with
  | some c =>
    let (events, ended) ← finished (run (some c.maxSteps))
    logEvents events
    outcome ended
  | none =>
    let (events, ended) ← finished (run (s.loadConfig.2.toOption.map (·.maxSteps)))
    let (before, after) := events.span (· ≠ .capRead)
    logEvents before
    if after ≠ [] then discard activeConfig
    logEvents after
    outcome ended

/-- What passes settle on, under a given cap or the configured one. -/
def reduce (cap : Option Int) (e : Expr) : SessionM Expr :=
  withCap fun configured =>
    match cap with
    | some cap => Constructions.reduce cap fuel e
    | none => normalize configured fuel e

/-- The type of an expression. -/
def typeOf (Γ : Ctx) (e : Expr) : SessionM Expr := withCap fun cap => derive cap fuel Γ e

/-- The type of an expression, which must be one of those accepted. -/
def validate (Γ : Ctx) (e : Expr) (accepted : List Expr) : SessionM Expr :=
  withCap fun cap => Constructions.validate cap fuel Γ e accepted

/-! ### Files -/

/-- The configuration file nearest to a directory. -/
def findConfig (start : String) : SessionM (Option Path) := do
  let s ← get
  return Config.find s.tree (Path.resolve s.cwd start)

/-- Makes a directory below the root. -/
def makeDir (name : String) : SessionM Unit :=
  modify fun s => { s with tree := s.tree.addDir (Path.resolve [] name) }

/-- Writes a file below the root. -/
def writeFile (name : String) (bytes : List UInt8) : SessionM Unit :=
  modify fun s => { s with tree := s.tree.write (Path.resolve [] name) bytes }

/-- Deletes a file below the root. -/
def deleteFile (name : String) : SessionM Unit :=
  modify fun s => { s with tree := s.tree.delete (Path.resolve [] name) }

/-- Moves to a directory below the root. -/
def changeDir (name : String) : SessionM Unit :=
  modify fun s => { s with cwd := Path.resolve [] name }

end SessionM

end Constructions
