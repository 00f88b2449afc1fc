import ShardCoding.Json.Lexer
import ShardCoding.Text.Blank

/-!
# Points in time

* `Instant` : a date and a time of day in UTC, to the nanosecond; second 60 is a leap second;
* `Instant.text` : RFC 3339 with `Z` and 0, 3, 6 or 9 digits of a second, the fewest that are exact;
* `Instant.read?` : RFC 3339 with any offset, read leniently: a blank may stand for the `T` and before each part, and
  leading zeros may be missing;
* `durationText` : the length of a time.
-/

namespace ShardCoding

structure Instant where
  year : Int
  month : Nat
  day : Nat
  hour : Nat
  minute : Nat
  second : Nat
  nano : Nat := 0
  deriving DecidableEq, Repr

namespace Instant

/-! ## The calendar -/

def isLeap (year : Int) : Bool := year % 4 = 0 && (year % 100 ≠ 0 || year % 400 = 0)

def daysInMonth (year : Int) (month : Nat) : Nat :=
  if month = 2 then (if isLeap year then 29 else 28)
  else if month = 4 ∨ month = 6 ∨ month = 9 ∨ month = 11 then 30
  else 31

/-- Years that dates are kept for. -/
def minYear : Int := -262143

def maxYear : Int := 262142

/-- A date and a time of day that exist. -/
def isValid (t : Instant) : Bool :=
  minYear ≤ t.year && t.year ≤ maxYear && 1 ≤ t.month && t.month ≤ 12 && 1 ≤ t.day &&
    t.day ≤ daysInMonth t.year t.month && t.hour < 24 && t.minute < 60 && t.second ≤ 60 && t.nano < 1000000000

/-- Days since the first of March of year 0, for years that begin in March. -/
def dayNumber (year : Int) (month day : Nat) : Int :=
  let y := if month ≤ 2 then year - 1 else year
  let m : Int := if month ≤ 2 then month + 9 else month - 3
  365 * y + y / 4 - y / 100 + y / 400 + (153 * m + 2) / 5 + day - 1

/-- The date with a given day number: eras of 400 years have 146097 days each. -/
def ofDayNumber (n : Int) : Int × Nat × Nat :=
  let era := n / 146097
  let d := n % 146097
  let yearOfEra := (d - d / 1460 + d / 36524 - d / 146096) / 365
  let dayOfYear := d - (365 * yearOfEra + yearOfEra / 4 - yearOfEra / 100)
  let m := (5 * dayOfYear + 2) / 153
  let day := dayOfYear - (153 * m + 2) / 5 + 1
  let month := if m < 10 then m + 3 else m - 9
  let year := yearOfEra + 400 * era + (if month ≤ 2 then 1 else 0)
  (year, month.toNat, day.toNat)

/-- The same reading of the clock as `t`, `minutes` earlier. -/
def earlier (t : Instant) (minutes : Int) : Instant :=
  if minutes = 0 then t
  else
    let total := dayNumber t.year t.month t.day * 1440 + t.hour * 60 + t.minute - minutes
    let (year, month, day) := ofDayNumber (total / 1440)
    { t with
      year, month, day
      hour := (total % 1440 / 60).toNat
      minute := (total % 60).toNat }

/-- The point in time so many seconds and nanoseconds after the start of 1970. -/
def ofUnixTime (seconds : Int) (nano : Nat) : Instant :=
  let (year, month, day) := ofDayNumber (dayNumber 1970 1 1 + seconds / 86400)
  let s := (seconds % 86400).toNat
  { year, month, day, hour := s / 3600, minute := s / 60 % 60, second := s % 60, nano }

/-! ## Writing -/

/-- At least `width` digits. -/
def padded (width n : Nat) : List Char :=
  let ds := natDigits n
  List.replicate (width - ds.length) '0' ++ ds

/-- Years of four digits stand as they are, all others have a sign. -/
def yearText (year : Int) : List Char :=
  if 0 ≤ year ∧ year ≤ 9999 then padded 4 year.toNat
  else (if year < 0 then '-' else '+') :: padded 4 year.natAbs

def fractionText (nano : Nat) : List Char :=
  if nano = 0 then []
  else if nano % 1000000 = 0 then '.' :: padded 3 (nano / 1000000)
  else if nano % 1000 = 0 then '.' :: padded 6 (nano / 1000)
  else '.' :: padded 9 nano

def text (t : Instant) : String :=
  String.ofList (yearText t.year ++ '-' :: padded 2 t.month ++ '-' :: padded 2 t.day ++ 'T' :: padded 2 t.hour ++
    ':' :: padded 2 t.minute ++ ':' :: padded 2 t.second ++ fractionText t.nano ++ ['Z'])

/-! ## Reading -/

/-- One to `most` digits, after blanks, and what follows them. -/
def readNumber (most : Nat) (cs : List Char) : Option (Nat × List Char) :=
  let cs := trimStart cs
  let ds := (cs.take most).takeWhile isDigit
  if ds.isEmpty then none else some (digitsValue ds, cs.drop ds.length)

/-- A year has four digits at most, unless it has a sign. -/
def readYear (cs : List Char) : Option (Int × List Char) :=
  match trimStart cs with
  | '-' :: r =>
    let (ds, r') := spanDigits r
    if ds.isEmpty then none else some (-(digitsValue ds : Int), r')
  | '+' :: r =>
    let (ds, r') := spanDigits r
    if ds.isEmpty then none else some ((digitsValue ds : Int), r')
  | cs => (readNumber 4 cs).map fun (n, r) => ((n : Int), r)

/-- A given character, after blanks. -/
def readMark (mark : Char) (cs : List Char) : Option (List Char) :=
  match trimStart cs with
  | c :: r => if c = mark then some r else none
  | [] => none

/-- A point and digits, of which nine count; no nanoseconds without a point. -/
def readFraction : List Char → Option (Nat × List Char)
  | '.' :: r =>
    let (ds, r') := spanDigits r
    if ds.isEmpty then none
    else
      let counted := ds.take 9
      some (digitsValue counted * Nat.pow 10 (9 - counted.length), r')
  | cs => some (0, cs)

/-- Hours and minutes, two digits each, with colons or blanks between them. -/
def readHoursMinutes : List Char → Option (Nat × List Char)
  | h₁ :: h₂ :: r =>
    match r.dropWhile (fun c => c = ':' || isBlank c) with
    | m₁ :: m₂ :: r' =>
      if isDigit h₁ && isDigit h₂ && isDigit m₁ && isDigit m₂ && m₁ ≤ '5' then
        some (digitsValue [h₁, h₂] * 60 + digitsValue [m₁, m₂], r')
      else none
    | _ => none
  | _ => none

/-- The minutes by which local time is ahead: `Z`, `UTC`, or a sign with hours and minutes, less than a day. -/
def readOffset (cs : List Char) : Option (Int × List Char) :=
  if (cs.take 3).map Char.toLower = ['u', 't', 'c'] then some (0, cs.drop 3)
  else
    match cs with
    | 'Z' :: r => some (0, r)
    | 'z' :: r => some (0, r)
    | sign :: r =>
      if sign = '+' ∨ sign = '-' ∨ sign = '\u2212' then
        (readHoursMinutes r).bind fun (minutes, r') =>
          if minutes < 1440 then some ((if sign = '+' then (minutes : Int) else -minutes), r') else none
      else none
    | [] => none

def read? (s : String) : Option Instant := do
  let (year, cs) ← readYear s.toList
  let cs ← readMark '-' cs
  let (month, cs) ← readNumber 2 cs
  let cs ← readMark '-' cs
  let (day, cs) ← readNumber 2 cs
  let cs ← match cs with
    | c :: r => if c = 'T' ∨ c = 't' ∨ c = ' ' then some r else none
    | [] => none
  let (hour, cs) ← readNumber 2 cs
  let cs ← readMark ':' cs
  let (minute, cs) ← readNumber 2 cs
  let cs ← readMark ':' cs
  let (second, cs) ← readNumber 2 cs
  let (nano, cs) ← readFraction cs
  let (offset, cs) ← readOffset (trimStart cs)
  let local' : Instant := { year, month, day, hour, minute, second, nano }
  if ¬ local'.isValid ∨ ¬ (trimStart cs).isEmpty then none
  let t := local'.earlier offset
  if t.isValid then some t else none

end Instant

/-- A number of nanoseconds in the largest unit of which there is at least one. -/
def durationText (nanos : Nat) : String :=
  let inUnit (places : Nat) (name : String) : String :=
    let fraction := (Instant.padded places (nanos % Nat.pow 10 places)).reverse.dropWhile (· = '0') |>.reverse
    let whole := natDigits (nanos / Nat.pow 10 places)
    String.ofList (if fraction.isEmpty then whole else whole ++ '.' :: fraction) ++ name
  if 1000000000 ≤ nanos then inUnit 9 "s"
  else if 1000000 ≤ nanos then inUnit 6 "ms"
  else if 1000 ≤ nanos then inUnit 3 "\u00b5s"
  else s!"{nanos}ns"

end ShardCoding
