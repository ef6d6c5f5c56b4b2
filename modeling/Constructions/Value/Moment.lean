/-!
# Dates and times

* `Date` -- a day of the calendar, counted from the first one by `Date.number`.
* `Moment` -- a day with a time, and perhaps how far the clock is ahead of universal time.
* `Moment.same` -- when two of them are one moment.
* `Date.literal`, `Moment.literal` -- the forms in which messages show them.
-/

namespace Constructions

/-! ## 1. Dates -/

/-- A day of the calendar. -/
structure Date where
  year : Nat
  month : Nat
  day : Nat
deriving DecidableEq, Repr

namespace Date

/-- Whether a year has 366 days. -/
def isLeap (year : Nat) : Bool := year % 4 = 0 && (year % 100 ≠ 0 || year % 400 = 0)

/-- The number of days of a month. -/
def daysOf (year month : Nat) : Nat :=
  if month = 2 then (if isLeap year then 29 else 28)
  else if [4, 6, 9, 11].contains month then 30
  else 31

/-- The number of days in the first `months` months of a year. -/
def daysIn (year : Nat) : Nat → Nat
  | 0 => 0
  | months + 1 => daysIn year months + daysOf year (months + 1)

/-- The number of a day, that of the first day of the year one being one. -/
def number (d : Date) : Nat :=
  let years := d.year - 1
  365 * years + years / 4 - years / 100 + years / 400 + daysIn d.year (d.month - 1) + d.day

/-- The parts of a date as numbers. -/
def parts (d : Date) : List Nat := [d.year, d.month, d.day]

/-- A date as messages show it. -/
def literal (d : Date) : String :=
  "datetime.date(" ++ ", ".intercalate (d.parts.map toString) ++ ")"

end Date

/-! ## 2. Times -/

/-- A day with a time. -/
structure Moment where
  date : Date
  hour : Nat
  minute : Nat
  second : Nat
  /-- The millionths of a second. -/
  micro : Nat
  /-- The seconds by which the clock is ahead of universal time, if that is known. -/
  ahead : Option Int
deriving DecidableEq, Repr

namespace Moment

/-- The seconds of a day. -/
def daySeconds : Int := 86400

/-- The seconds in universal time for a clock that is `ahead`. -/
def universal (t : Moment) (ahead : Int) : Int :=
  t.date.number * daySeconds + t.hour * 3600 + t.minute * 60 + t.second - ahead

/-- Whether two moments are the same: by universal time if it is known of both, by the clock if it
    is known of neither. -/
def same (t u : Moment) : Bool :=
  match t.ahead, u.ahead with
  | some a, some b => t.universal a == u.universal b && t.micro == u.micro
  | none, none => t == u
  | _, _ => false

/-- A number of seconds, before or after, as messages show it: whole days, then seconds forward. -/
def spanLiteral (seconds : Int) : String :=
  let part (name : String) (n : Int) := if n = 0 then [] else [name ++ "=" ++ toString n]
  let parts := part "days" (seconds.fdiv daySeconds) ++ part "seconds" (seconds.fmod daySeconds)
  "datetime.timedelta(" ++ (if parts.isEmpty then "0" else ", ".intercalate parts) ++ ")"

/-- A time zone as messages show it. -/
def zoneLiteral (ahead : Int) : String :=
  if ahead = 0 then "datetime.timezone.utc"
  else "datetime.timezone(" ++ spanLiteral ahead ++ ")"

/-- A moment as messages show it: without the seconds, or their millionths, when none are left to
    tell. -/
def literal (t : Moment) : String :=
  let clock :=
    [t.hour, t.minute] ++
      (if t.micro ≠ 0 then [t.second, t.micro] else if t.second ≠ 0 then [t.second] else [])
  let zone := match t.ahead with
    | some n => ["tzinfo=" ++ zoneLiteral n]
    | none => []
  "datetime.datetime(" ++ ", ".intercalate ((t.date.parts ++ clock).map toString ++ zone) ++ ")"

end Moment

end Constructions
