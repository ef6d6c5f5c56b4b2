import Constructions.Text.Digit
import Constructions.Value.Basic
import Constructions.Yaml.Fault

/-!
# Dates and times in texts

* `Yaml.Stamp` -- the parts of a date, with or without a time, as they are written.
* `Yaml.Stamp.ofText?` -- the parts of a text; `Yaml.isStamp` -- whether a plain text is one.
* `Yaml.Stamp.toValue` -- the value, if there is such a day and such a time.
-/

namespace Constructions.Yaml

/-! ## 1. How dates and times are written -/

/-- A time zone: universal time, or so many hours and minutes before or after it. -/
inductive Zone
  | universal
  | offset (behind : Bool) (hours minutes : Nat)
deriving DecidableEq, Repr

/-- A time of the day. -/
structure Clock where
  hour : Nat
  minute : Nat
  second : Nat
  /-- The digits after the point of the seconds. -/
  fraction : List Nat
  zone : Option Zone
deriving DecidableEq, Repr

/-- A date and perhaps a time. -/
structure Stamp where
  date : Date
  clock : Option Clock
deriving DecidableEq, Repr

/-- A number of at least `least` and at most `most` digits, and what follows it. -/
def number? (least most : Nat) (s : List Char) : Option (Nat × List Char) :=
  let digits := s.takeWhile Char.isDigit
  if least ≤ digits.length && digits.length ≤ most then
    some (Text.ofDigits 10 (digits.filterMap Text.asciiDigit?), s.drop digits.length)
  else none

/-- What follows a character that has to be there. -/
def past? (c : Char) : List Char → Option (List Char)
  | d :: rest => if d = c then some rest else none
  | [] => none

/-- What follows the blanks at the front. -/
def pastBlanks (s : List Char) : List Char := s.dropWhile fun c => c = ' ' || c = '\t'

/-- The time zone at the end of a time; nothing is none. -/
def zone? : List Char → Option (Option Zone)
  | [] => some none
  | s =>
    match pastBlanks s with
    | ['Z'] => some (some .universal)
    | sign :: rest => do
      if sign ≠ '-' ∧ sign ≠ '+' then none
      let (hours, rest) ← number? 1 2 rest
      match rest with
      | [] => return some (.offset (sign = '-') hours 0)
      | _ => do
        let (minutes, rest) ← number? 2 2 (← past? ':' rest)
        if rest.isEmpty then return some (.offset (sign = '-') hours minutes) else none
    | [] => none

/-- The time after a date. -/
def clock? (s : List Char) : Option Clock := do
  let (hour, s) ← number? 1 2 s
  let (minute, s) ← number? 2 2 (← past? ':' s)
  let (second, s) ← number? 2 2 (← past? ':' s)
  let (fraction, s) := match s with
    | '.' :: rest => rest.span Char.isDigit
    | s => ([], s)
  return ⟨hour, minute, second, fraction.filterMap Text.asciiDigit?, ← zone? s⟩

/-- The parts of a text: a year in four digits, a month and a day in one or two, and after a `T` or
    blanks a time. -/
def Stamp.ofText? (s : List Char) : Option Stamp := do
  let (year, s) ← number? 4 4 s
  let (month, s) ← number? 1 2 (← past? '-' s)
  let (day, s) ← number? 1 2 (← past? '-' s)
  let date : Date := ⟨year, month, day⟩
  match s with
  | [] => return ⟨date, none⟩
  | c :: rest =>
    if c = 'T' || c = 't' then return ⟨date, some (← clock? rest)⟩
    else if c = ' ' || c = '\t' then return ⟨date, some (← clock? (pastBlanks rest))⟩
    else none

/-- Whether a plain text is a date or a time.  A date alone has two digits for the month and for the
    day, ten characters in all. -/
def isStamp (s : List Char) : Bool :=
  match Stamp.ofText? s with
  | some stamp => stamp.clock.isSome || s.length = 10
  | none => false

/-! ## 2. Values -/

/-- The seconds by which a clock in a zone is ahead; less than a day. -/
def Zone.ahead : Zone → Except BadScalar Int
  | universal => .ok 0
  | offset behind hours minutes =>
    let seconds : Int := hours * 3600 + minutes * 60
    let seconds := if behind then -seconds else seconds
    if seconds.natAbs < 86400 then .ok seconds else .error (.zone (Moment.spanLiteral seconds))

/-- The millionths of a second that the digits after a point make, the first six counting. -/
def microseconds (digits : List Nat) : Nat :=
  let six := digits.take 6
  Text.ofDigits 10 (six ++ List.replicate (6 - six.length) 0)

/-- A date that the calendar has. -/
def checkDate (d : Date) : Except BadScalar Unit :=
  if d.year = 0 then .error .year
  else if d.month = 0 || 12 < d.month then .error .month
  else if d.day = 0 || Date.daysOf d.year d.month < d.day then .error .day
  else .ok ()

/-- A time that the clock shows. -/
def checkClock (c : Clock) : Except BadScalar Unit :=
  if 23 < c.hour then .error .hour
  else if 59 < c.minute then .error .minute
  else if 59 < c.second then .error .second
  else .ok ()

/-- The value of a date or time.  The zone is checked first, then the date, then the time. -/
def Stamp.toValue (s : Stamp) : Except BadScalar Value := do
  match s.clock with
  | none =>
    checkDate s.date
    return .date s.date
  | some c =>
    let ahead ← c.zone.mapM Zone.ahead
    checkDate s.date
    checkClock c
    return .moment ⟨s.date, c.hour, c.minute, c.second, microseconds c.fraction, ahead⟩

end Constructions.Yaml
