/-!
# Calendar — days and moments

A `Moment` is a day of the Gregorian calendar, perhaps with a time of day and how far that time is
ahead of universal time.  `Moment.check` refuses days and times that do not exist; `plain` writes
the standard form and `display` the parts one by one.
-/

namespace SlotEdit

/-- A time of day, and how many minutes it is ahead of universal time if that is known. -/
structure TimeOfDay where
  hour : Nat
  minute : Nat
  second : Nat
  microsecond : Nat
  ahead : Option Int
deriving DecidableEq, Repr, Inhabited

/-- A day, or a moment of it. -/
structure Moment where
  year : Nat
  month : Nat
  day : Nat
  time : Option TimeOfDay
deriving DecidableEq, Repr, Inhabited

/-- Why there is no such moment. -/
inductive MomentFault
  | year (n : Nat)
  | month
  | day
  | hour
  | minute
  | second
  | offset (minutes : Int)
deriving DecidableEq, Repr

/-- A decimal with zeros in front up to `width` digits. -/
def zeroPadded (width n : Nat) : String :=
  let digits := Nat.toDigits 10 n
  String.ofList (List.replicate (width - digits.length) '0' ++ digits)

/-- A span of minutes by its days and seconds, of which only days are ever negative. -/
def minutesDisplay (minutes : Int) : String :=
  let days := Int.fdiv minutes 1440
  let seconds := Int.fmod minutes 1440 * 60
  let parts := (if days = 0 then [] else ["days=" ++ toString days])
    ++ (if seconds = 0 then [] else ["seconds=" ++ toString seconds])
  "datetime.timedelta(" ++ (if parts.isEmpty then "0" else ", ".intercalate parts) ++ ")"

/-- The wording of a fault. -/
def MomentFault.message : MomentFault → String
  | .year n => "year " ++ toString n ++ " is out of range"
  | .month => "month must be in 1..12"
  | .day => "day is out of range for month"
  | .hour => "hour must be in 0..23"
  | .minute => "minute must be in 0..59"
  | .second => "second must be in 0..59"
  | .offset minutes =>
    "offset must be a timedelta strictly between -timedelta(hours=24) and timedelta(hours=24), not "
      ++ minutesDisplay minutes ++ "."

/-- A year of 366 days. -/
def isLeapYear (year : Nat) : Bool := year % 4 = 0 ∧ (year % 100 ≠ 0 ∨ year % 400 = 0)

/-- How many days a month has. -/
def daysInMonth (year month : Nat) : Nat :=
  if month = 2 then if isLeapYear year then 29 else 28
  else if month = 4 ∨ month = 6 ∨ month = 9 ∨ month = 11 then 30
  else 31

/-- What keeps a time of day from existing. -/
def TimeOfDay.fault? (t : TimeOfDay) : Option MomentFault :=
  if t.hour > 23 then some .hour
  else if t.minute > 59 then some .minute
  else if t.second > 59 then some .second
  else none

namespace Moment

/-- **What keeps a moment from existing**: an offset of a day or more, then the parts of the day,
then those of the time. -/
def fault? (m : Moment) : Option MomentFault :=
  let far := (m.time.bind TimeOfDay.ahead).filter fun minutes => minutes.natAbs ≥ 1440
  match far with
  | some minutes => some (.offset minutes)
  | none =>
    if m.year = 0 then some (.year m.year)
    else if m.month = 0 ∨ m.month > 12 then some .month
    else if m.day = 0 ∨ m.day > daysInMonth m.year m.month then some .day
    else m.time.bind TimeOfDay.fault?

/-- A day or moment in its standard form, with a blank before the time. -/
def plain (m : Moment) : String :=
  let date := zeroPadded 4 m.year ++ "-" ++ zeroPadded 2 m.month ++ "-" ++ zeroPadded 2 m.day
  match m.time with
  | none => date
  | some t =>
    let fraction := if t.microsecond = 0 then "" else "." ++ zeroPadded 6 t.microsecond
    let zone := match t.ahead with
      | none => ""
      | some minutes => (if minutes < 0 then "-" else "+")
        ++ zeroPadded 2 (minutes.natAbs / 60) ++ ":" ++ zeroPadded 2 (minutes.natAbs % 60)
    date ++ " " ++ zeroPadded 2 t.hour ++ ":" ++ zeroPadded 2 t.minute ++ ":"
      ++ zeroPadded 2 t.second ++ fraction ++ zone

/-- The zone of a time as a reader is shown it. -/
def zoneDisplay (minutes : Int) : String :=
  if minutes = 0 then "datetime.timezone.utc"
  else "datetime.timezone(" ++ minutesDisplay minutes ++ ")"

/-- A day or moment by its parts; seconds and their fractions only as far as they are not zero. -/
def display (m : Moment) : String :=
  let date := [m.year, m.month, m.day]
  match m.time with
  | none => "datetime.date(" ++ ", ".intercalate (date.map toString) ++ ")"
  | some t =>
    let fine := if t.microsecond ≠ 0 then [t.second, t.microsecond]
      else if t.second ≠ 0 then [t.second] else []
    let zone := match t.ahead with
      | none => ""
      | some minutes => ", tzinfo=" ++ zoneDisplay minutes
    "datetime.datetime(" ++ ", ".intercalate ((date ++ [t.hour, t.minute] ++ fine).map toString)
      ++ zone ++ ")"

end Moment

end SlotEdit
