/-! Instants as milliseconds from the start of 1970, and their two written forms. Calendar fields
out of range carry over, so that a thirteenth month is the first of the next year. -/
namespace Inliner

/-- Milliseconds since 1970-01-01, coordinated universal time. -/
structure Instant where
  millis : Int
  deriving DecidableEq, Repr, Inhabited

namespace Instant

def daysOfMonth (year month : Int) : Int :=
  let year := year + Int.fdiv (month - 1) 12
  let month := Int.fmod (month - 1) 12 + 1
  let y := if month ≤ 2 then year - 1 else year
  let era := Int.fdiv y 400
  let yearOfEra := y - era * 400
  let dayOfYear := (153 * (if month > 2 then month - 3 else month + 9) + 2) / 5
  era * 146097 + yearOfEra * 365 + yearOfEra / 4 - yearOfEra / 100 + dayOfYear - 719468

def ofFields (year month day hour minute second millis : Int) : Instant :=
  ⟨((((daysOfMonth year month + (day - 1)) * 24 + hour) * 60 + minute) * 60 + second) * 1000 +
    millis⟩

structure Date where
  year : Int
  month : Nat
  day : Nat

def Date.ofDays (days : Int) : Date :=
  let z := days + 719468
  let era := Int.fdiv z 146097
  let dayOfEra := z - era * 146097
  let yearOfEra :=
    (dayOfEra - dayOfEra / 1460 + dayOfEra / 36524 - dayOfEra / 146096) / 365
  let dayOfYear := dayOfEra - (365 * yearOfEra + yearOfEra / 4 - yearOfEra / 100)
  let mp := (5 * dayOfYear + 2) / 153
  let month := if mp < 10 then mp + 3 else mp - 9
  let year := yearOfEra + era * 400 + (if month ≤ 2 then 1 else 0)
  ⟨year, month.toNat, (dayOfYear - (153 * mp + 2) / 5 + 1).toNat⟩

def days (t : Instant) : Int := Int.fdiv t.millis 86400000

def date (t : Instant) : Date := Date.ofDays t.days

def millisOfDay (t : Instant) : Nat := (Int.fmod t.millis 86400000).toNat

def padded (width n : Nat) : String :=
  let digits := Nat.toDigits 10 n
  String.ofList (List.replicate (width - digits.length) '0' ++ digits)

def clock (t : Instant) : String :=
  let s := t.millisOfDay / 1000
  padded 2 (s / 3600) ++ ":" ++ padded 2 (s / 60 % 60) ++ ":" ++ padded 2 (s % 60)

/-- Years outside 0 to 9999 have a sign and six digits. -/
def isoYear (y : Int) : String :=
  if 0 ≤ y ∧ y ≤ 9999 then padded 4 y.toNat
  else (if y < 0 then "-" else "+") ++ padded 6 y.natAbs

def iso (t : Instant) : String :=
  let d := t.date
  isoYear d.year ++ "-" ++ padded 2 d.month ++ "-" ++ padded 2 d.day ++ "T" ++ t.clock ++ "." ++
    padded 3 (t.millisOfDay % 1000) ++ "Z"

def weekdayName (t : Instant) : String :=
  match (Int.fmod (t.days + 4) 7).toNat with
  | 0 => "Sun" | 1 => "Mon" | 2 => "Tue" | 3 => "Wed" | 4 => "Thu" | 5 => "Fri" | _ => "Sat"

def monthName : Nat → String
  | 1 => "Jan" | 2 => "Feb" | 3 => "Mar" | 4 => "Apr" | 5 => "May" | 6 => "Jun"
  | 7 => "Jul" | 8 => "Aug" | 9 => "Sep" | 10 => "Oct" | 11 => "Nov" | _ => "Dec"

def text (t : Instant) : String :=
  let d := t.date
  let year := (if d.year < 0 then "-" else "") ++
    padded (if d.year < 0 then 6 else 4) d.year.natAbs
  t.weekdayName ++ " " ++ monthName d.month ++ " " ++ padded 2 d.day ++ " " ++ year ++ " " ++
    t.clock ++ " GMT+0000 (Coordinated Universal Time)"

end Instant
end Inliner
