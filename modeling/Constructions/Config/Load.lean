import Constructions.Config.Basic
import Constructions.Config.Tree
import Constructions.Json.Parse
import Constructions.Text.Utf8
import Constructions.Yaml.Document

/-!
# Finding and loading a configuration

* `Config.find` -- the configuration file nearest to a directory, looking upward.
* `Config.loadNamed`, `Config.loadNearest` -- the configuration of a file.  A file that is missing,
  cannot be opened or cannot be parsed gives the defaults.
* `Config.LoadFault` -- the few ways in which loading does fail.
-/

namespace Constructions.Config

/-! ## 1. Finding -/

/-- The names of configuration files; of two in one directory the earlier one counts. -/
def fileNames : List String :=
  [".fluxorc.yml", ".fluxorc.yaml", ".fluxorc.json", "fluxo.config.yml", "fluxo.config.json"]

/-- The places where a configuration file may be, from a directory upward, first choice first. -/
def candidates (start : Path) : List Path :=
  start.upward.flatMap fun dir => fileNames.map fun name => dir ++ [name]

/-- The configuration file nearest to a directory. -/
def find (t : Tree) (start : Path) : Option Path := (candidates start).find? t.isFile

/-! ## 2. Faults -/

/-- Why loading failed. -/
inductive LoadFault
  /-- The path holds the character NUL. -/
  | nullInPath
  /-- The file is not UTF-8. -/
  | undecodable (f : Text.Utf8Fault)
  /-- An integer of the document has this many digits. -/
  | tooLong (digits : Nat)
  /-- The entries of the document give no configuration. -/
  | entry (x : EntryFault)
  /-- A scalar of the document has no value. -/
  | scalar (x : Yaml.BadScalar)
deriving DecidableEq, Repr

/-- The text of a fault. -/
def LoadFault.message : LoadFault → String
  | nullInPath => "embedded null byte"
  | undecodable f => f.message
  | tooLong digits =>
    "Exceeds the limit (4300 digits) for integer string conversion: value has " ++ toString digits
      ++ " digits; use sys.set_int_max_str_digits() to increase the limit"
  | entry x => x.message
  | scalar x => x.message

/-! ## 3. Loading -/

/-- The formats of documents. -/
inductive Format
  | json
  | yaml
deriving DecidableEq, Repr

/-- A name that ends in `.json` is that of a JSON document, any other that of a YAML document. -/
def Format.ofName (name : String) : Format :=
  if ".json".toList.isSuffixOf name.toList then json else yaml

/-- The value of a document; `none` if it cannot be parsed. -/
def parseDocument (format : Format) (text : List Char) : Except LoadFault (Option Value) :=
  match format with
  | .json =>
    match Json.parse text with
    | .ok j => .ok (some (.ofJson j))
    | .error .malformed => .ok none
    | .error (.tooLong digits) => .error (.tooLong digits)
  | .yaml =>
    match Yaml.parse text with
    | .ok v => .ok (some v)
    | .error .malformed => .ok none
    | .error (.tooLong digits) => .error (.tooLong digits)
    | .error (.scalar x) => .error (.scalar x)

/-- The defaults, with nothing ignored. -/
def defaults : Reading LoadFault := { outcome := .ok {} }

/-- Loading that failed before any entry was looked at. -/
def failed (x : LoadFault) : Reading LoadFault := { outcome := .error x }

/-- The configuration of the bytes of a file. -/
def ofBytes (format : Format) (bytes : List UInt8) : Reading LoadFault :=
  match Text.decodeUtf8 bytes with
  | .error f => failed (.undecodable f)
  | .ok text =>
    match parseDocument format (Text.unifyLineEnds text) with
    | .error f => failed f
    | .ok (some (.map entries)) =>
      let found := ofEntries entries
      { found with outcome := found.outcome.mapError .entry }
    | .ok _ => defaults

/-- The configuration of the file that a text names from the directory `cwd`. -/
def loadNamed (t : Tree) (cwd : Path) (name : String) : Reading LoadFault :=
  if name.toList.contains '\x00' then failed .nullInPath
  else match t.lookup cwd name with
    | some bytes => ofBytes (.ofName name) bytes
    | none => defaults

/-- The configuration of the file nearest to a directory. -/
def loadNearest (t : Tree) (start : Path) : Reading LoadFault :=
  match find t start with
  | some p =>
    match t.bytes? p with
    | some bytes => ofBytes (.ofName p.render) bytes
    | none => defaults
  | none => defaults

end Constructions.Config
