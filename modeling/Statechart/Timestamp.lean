import Statechart.Codec

/-! Points in time as civil dates and times of day in UTC, with their spellings. -/

namespace Statechart

/-- A civil date and time of day. Second 60 is a leap second. -/
structure CivilTime where
  year : Int
  month : Nat
  day : Nat
  hour : Nat
  minute : Nat
  second : Nat
  nanosecond : Nat
  deriving DecidableEq

namespace CivilTime

def isLeapYear (year : Int) : Bool := year % 4 == 0 && (year % 100 != 0 || year % 400 == 0)

def monthLength (year : Int) (month : Nat) : Nat :=
  if month = 2 then if isLeapYear year then 29 else 28
  else if month = 4 ∨ month = 6 ∨ month = 9 ∨ month = 11 then 30
  else 31

def Valid (t : CivilTime) : Prop :=
  (-262143 ≤ t.year ∧ t.year ≤ 262142) ∧ (1 ≤ t.month ∧ t.month ≤ 12) ∧
    (1 ≤ t.day ∧ t.day ≤ monthLength t.year t.month) ∧
    t.hour < 24 ∧ t.minute < 60 ∧ t.second ≤ 60 ∧ t.nanosecond < 10 ^ (9 : Nat)

instance (t : CivilTime) : Decidable t.Valid := by unfold Valid; infer_instance

def nextDay (t : CivilTime) : CivilTime :=
  if t.day < monthLength t.year t.month then { t with day := t.day + 1 }
  else if t.month < 12 then { t with month := t.month + 1, day := 1 }
  else { t with year := t.year + 1, month := 1, day := 1 }

def previousDay (t : CivilTime) : CivilTime :=
  if 1 < t.day then { t with day := t.day - 1 }
  else if 1 < t.month then
    { t with month := t.month - 1, day := monthLength t.year (t.month - 1) }
  else { t with year := t.year - 1, month := 12, day := 31 }

/-- The time some minutes earlier, for less than a day in either direction. -/
def earlier (t : CivilTime) (minutes : Int) : CivilTime :=
  let m : Int := t.hour * 60 + t.minute - minutes
  let d := if m < 0 then t.previousDay else if 1440 ≤ m then t.nextDay else t
  { d with hour := (m % 1440).toNat / 60, minute := (m % 1440).toNat % 60 }

end CivilTime

structure Timestamp extends CivilTime where
  valid : toCivilTime.Valid
  deriving DecidableEq

namespace Timestamp

def ofCivil? (t : CivilTime) : Option Timestamp :=
  if h : t.Valid then some ⟨t, h⟩ else none

def padded (width n : Nat) : List Char := (paddedDigits 10 width n).map digitChar

/-- Years beyond four digits, and those before year zero, carry a sign. -/
def renderYear (year : Int) : List Char :=
  if 0 ≤ year ∧ year ≤ 9999 then padded 4 year.toNat
  else (if year < 0 then '-' else '+') :: padded 4 year.natAbs

/-- The fewest of no, three, six and nine digits that tell the fraction. -/
def renderFraction (nanosecond : Nat) : List Char :=
  if nanosecond = 0 then []
  else if nanosecond % 10 ^ (6 : Nat) = 0 then '.' :: padded 3 (nanosecond / 10 ^ (6 : Nat))
  else if nanosecond % 10 ^ (3 : Nat) = 0 then '.' :: padded 6 (nanosecond / 10 ^ (3 : Nat))
  else '.' :: padded 9 nanosecond

def render (t : Timestamp) : String :=
  String.ofList
    (renderYear t.year ++ '-' :: padded 2 t.month ++ '-' :: padded 2 t.day ++
      'T' :: padded 2 t.hour ++ ':' :: padded 2 t.minute ++ ':' :: padded 2 t.second ++
      renderFraction t.nanosecond ++ ['Z'])

def isSpace (c : Char) : Bool :=
  let n := c.toNat
  (9 ≤ n && n ≤ 13) || n == 0x20 || n == 0x85 || n == 0xa0 || n == 0x1680 ||
    (0x2000 ≤ n && n ≤ 0x200a) || n == 0x2028 || n == 0x2029 || n == 0x202f || n == 0x205f ||
    n == 0x3000

def skipSpace (cs : List Char) : List Char := cs.dropWhile isSpace

/-- Digits at the front of a text, as many as there are. -/
def readDigits? (cs : List Char) : Option (Nat × List Char) :=
  match Numeral.readDigits cs with
  | ([], _) => none
  | (ds, rest) => some (ofDigits 10 ds, rest)

/-- At most `most` digits at the front of a text. -/
def readShort? (most : Nat) (cs : List Char) : Option (Nat × List Char) :=
  (readDigits? (cs.take most)).map fun r => (r.1, r.2 ++ cs.drop most)

/-- A number of one or two digits, with space before it. -/
def readPart? (cs : List Char) : Option (Nat × List Char) := readShort? 2 (skipSpace cs)

/-- Four digits at most, or any number of digits behind a sign. -/
def readYear? (cs : List Char) : Option (Int × List Char) :=
  match skipSpace cs with
  | '-' :: cs => (readDigits? cs).map fun r => (-(r.1 : Int), r.2)
  | '+' :: cs => (readDigits? cs).map fun r => ((r.1 : Int), r.2)
  | cs => (readShort? 4 cs).map fun r => ((r.1 : Int), r.2)

def expect? (c : Char) (cs : List Char) : Option (List Char) :=
  match skipSpace cs with
  | d :: cs => if d = c then some cs else none
  | [] => none

def readSeparator? : List Char → Option (List Char)
  | c :: cs => if c = 'T' ∨ c = 't' ∨ c = ' ' then some cs else none
  | [] => none

/-- Digits of a fraction beyond the ninth are ignored. -/
def readFraction? : List Char → Option (Nat × List Char)
  | '.' :: cs =>
    match Numeral.readDigits cs with
    | ([], _) => none
    | (ds, rest) => some (ofDigits 10 (ds.take 9 ++ List.replicate (9 - ds.length) 0), rest)
  | cs => some (0, cs)

def readTwoDigits? : List Char → Option (Nat × List Char)
  | a :: b :: cs =>
    if isDecimalDigit a ∧ isDecimalDigit b then some (ofDigits 10 [digitValue a, digitValue b], cs)
    else none
  | _ => none

/-- An offset in minutes: a sign, hours and minutes. -/
def readOffset? : List Char → Option (Int × List Char)
  | sign :: cs => do
    let negative ←
      if sign = '+' then some false else if sign = '-' ∨ sign = '−' then some true else none
    let (hours, cs) ← readTwoDigits? cs
    let (minutes, cs) ← readTwoDigits? (cs.dropWhile fun c => c == ':' || isSpace c)
    if 24 ≤ hours ∨ 60 ≤ minutes then none
    else
      let m : Int := hours * 60 + minutes
      return (if negative then -m else m, cs)
  | [] => none

def readZone? (cs : List Char) : Option (Int × List Char) :=
  if (cs.take 3).map Char.toUpper = ['U', 'T', 'C'] then some (0, cs.drop 3)
  else
    match cs with
    | 'Z' :: cs => some (0, cs)
    | 'z' :: cs => some (0, cs)
    | cs => readOffset? cs

/-- The time a text spells in its own zone, and the offset of that zone. -/
def readLocal? (cs : List Char) : Option ((CivilTime × Int) × List Char) := do
  let (year, cs) ← readYear? cs
  let (month, cs) ← readPart? (← expect? '-' cs)
  let (day, cs) ← readPart? (← expect? '-' cs)
  let (hour, cs) ← readPart? (← readSeparator? cs)
  let (minute, cs) ← readPart? (← expect? ':' cs)
  let (second, cs) ← readPart? (← expect? ':' cs)
  let (nanosecond, cs) ← readFraction? cs
  let (offset, cs) ← readZone? (skipSpace cs)
  return ((⟨year, month, day, hour, minute, second, nanosecond⟩, offset), cs)

def parse? (s : String) : Option Timestamp := do
  let ((t, offset), cs) ← readLocal? s.toList
  if t.Valid ∧ skipSpace cs = [] then ofCivil? (t.earlier offset) else none

def codec : Codec Timestamp := .spelled render parse?

end Timestamp

end Statechart
