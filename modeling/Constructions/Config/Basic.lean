import Constructions.Log
import Constructions.Value.Integer

/-!
# Configuration

* `Config` -- the step cap and the log level.
* `Config.Warning` -- an entry of a document that was not understood and is ignored.
* `Config.Reading` -- a configuration, or why there is none, with the entries that were ignored.
* `Config.ofEntries` -- the configuration that a document asks for.
-/

namespace Constructions

/-- What can be configured.  A cap that is not positive is none; the level is a name, which is only
    looked up when it is put to use. -/
structure Config where
  maxSteps : Int := 512
  logLevel : String := "WARNING"
deriving DecidableEq, Repr, Inhabited

namespace Config

/-- An ignored entry, with the value it had. -/
inductive Warning
  | steps (v : Value)
  | level (v : Value)
deriving Repr

/-- The text of a warning. -/
def Warning.message : Warning → String
  | steps v => "ignoring max_reduction_steps=" ++ v.literal ++ ", not an integer"
  | level v => "ignoring unknown log_level " ++ v.literal

/-- The value that a warning shows. -/
def Warning.value : Warning → Value
  | steps v | level v => v

/-- The line for a warning. -/
def Warning.line (w : Warning) : Line where
  channel := .config
  severity := .warning
  text? := if w.value.isShowable then some w.message else none

/-- A letter as a capital.  Besides `a` to `z`, the dotless ı and the long ſ have a capital among
    `A` to `Z`; no other character has one that a level's name could need. -/
def capital (c : Char) : Char :=
  if c = 'ı' then 'I' else if c = 'ſ' then 'S' else c.toUpper

/-- The name of a known level that a value spells, in any case. -/
def levelOf? (v : Value) : Option String :=
  match v with
  | .text s =>
    let name := String.ofList (s.toList.map capital)
    if (levelNumber? name).isSome then some name else none
  | _ => none

/-- Why the entries of a document give no configuration. -/
inductive EntryFault
  /-- The step cap is infinite. -/
  | infiniteSteps
  /-- A value that has to be shown holds an integer with too many digits. -/
  | unshowable
deriving DecidableEq, Repr

/-- The text of a fault. -/
def EntryFault.message : EntryFault → String
  | infiniteSteps => "cannot convert float infinity to integer"
  | unshowable =>
    "Exceeds the limit (4300 digits) for integer string conversion; "
      ++ "use sys.set_int_max_str_digits() to increase the limit"

/-- What reading ended with, after some entries were ignored. -/
structure Reading (ε : Type) where
  ignored : List Warning := []
  outcome : Except ε Config

/-- The step cap that an entry asks for. -/
def readSteps (c : Config) : Option Value → Reading EntryFault
  | none => { outcome := .ok c }
  | some v =>
    match v.toInteger with
    | .integer n => { outcome := .ok { c with maxSteps := n } }
    | .absent => { ignored := [.steps v], outcome := .ok c }
    | .infinite => { outcome := .error .infiniteSteps }

/-- The level that an entry asks for. -/
def readLevel (c : Config) : Option Value → Reading EntryFault
  | none => { outcome := .ok c }
  | some v =>
    match levelOf? v with
    | some name => { outcome := .ok { c with logLevel := name } }
    | none =>
      if v.isShowable then { ignored := [.level v], outcome := .ok c }
      else { outcome := .error .unshowable }

/-- The configuration of a document, the step cap first.  What is not asked for, or not understood,
    stays at its default. -/
def ofEntries (entries : List (Value × Value)) : Reading EntryFault :=
  let steps := readSteps {} (entries.lookup (.text "max_reduction_steps"))
  match steps.outcome with
  | .error _ => steps
  | .ok c =>
    let level := c.readLevel (entries.lookup (.text "log_level"))
    { level with ignored := steps.ignored ++ level.ignored }

end Config

end Constructions
