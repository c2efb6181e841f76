import ChunkLedger.Text.Blank
import ChunkLedger.Time.Instant

/-!
# Instants as text (RFC 3339)

Written: `YYYY-MM-DDTHH:MM:SS`, a fraction of 0, 3, 6 or 9 digits, the fewest that lose nothing,
and `Z`.  A year outside 0 to 9999 has a sign and at least four digits.  A leap second is written
as second 60.

Read, with blanks allowed before each number and each separator:

* year (up to four digits, or a sign and any number), `-`, month, `-`, day;
* exactly one of `T`, `t` and space;
* hour, `:`, minute, `:`, second, optionally `.` and digits, of which nine count;
* `UTC` in either case, `Z`, `z`, or an offset: sign, two digits, colons and blanks, two digits;
* blanks.

Reading stops at the first fault.  A number is checked against its range as it is read; that the
day exists, that the year is in range and that the offset is below a day is checked at the end.
-/

namespace ChunkLedger.Rfc3339

-- powers of numbers are those of core, whatever else is in scope
attribute [local instance(high)] instPowNat

open ChunkLedger.Text (isBlank dropBlanks)

/-! ## writing -/

/-- decimal digits, with zeros in front up to the width `w` -/
def padded (w n : Nat) : List Char :=
  let ds := Nat.toDigits 10 n
  List.replicate (w - ds.length) '0' ++ ds

def yearText (y : Int) : List Char :=
  if 0 ≤ y ∧ y ≤ 9999 then padded 4 y.toNat
  else (if y < 0 then '-' else '+') :: padded 4 y.natAbs

/-- how many digits of the fraction are written -/
inductive Precision where
  /-- the fewest of 0, 3, 6 and 9 that lose nothing -/
  | exact
  /-- three, the rest cut off -/
  | millis
deriving DecidableEq

def fractionText (p : Precision) (nanos : Nat) : List Char :=
  match p with
  | .millis => '.' :: padded 3 (nanos / 1000000)
  | .exact =>
    if nanos = 0 then []
    else if nanos % 1000000 = 0 then '.' :: padded 3 (nanos / 1000000)
    else if nanos % 1000 = 0 then '.' :: padded 6 (nanos / 1000)
    else '.' :: padded 9 nanos

def chars (p : Precision) (t : Instant) : List Char :=
  let d := t.date
  yearText d.year ++ '-' :: padded 2 d.month ++ '-' :: padded 2 d.day ++
    'T' :: padded 2 t.hour ++ ':' :: padded 2 t.minute ++ ':' :: padded 2 t.second ++
    fractionText p t.fraction ++ ['Z']

def render (t : Instant) : String := String.ofList (chars .exact t)

def renderMillis (t : Instant) : String := String.ofList (chars .millis t)

/-! ## reading -/

inductive Fault where
  | tooShort
  | invalid
  | outOfRange
  /-- the local time exists, but universal time leaves the range -/
  | impossible
  | trailing
deriving DecidableEq, Repr

def Fault.message : Fault → String
  | .tooShort => "premature end of input"
  | .invalid => "input contains invalid characters"
  | .outOfRange => "input is out of range"
  | .impossible => "no possible date and time matching input"
  | .trailing => "trailing input"

/-- reads something off the front of the text and leaves the rest -/
abbrev Reader (α : Type) := List Char → Except Fault (α × List Char)

def digitsValue (ds : List Char) : Nat := ds.foldl (fun n c => n * 10 + (c.toNat - 48)) 0

/-- one to `most` digits -/
def digits (most : Option Nat) : Reader (List Char) := fun cs =>
  let run := cs.takeWhile Char.isDigit
  let ds := match most with
    | none => run
    | some m => run.take m
  if ds = [] then .error (if cs = [] then .tooShort else .invalid)
  else .ok (ds, cs.drop ds.length)

/-- a number of one or two digits, after blanks, from `low` to `high` -/
def number (low high : Nat) : Reader Nat := fun cs => do
  let (ds, cs) ← digits (some 2) (dropBlanks cs)
  let n := digitsValue ds
  if low ≤ n ∧ n ≤ high then return (n, cs) else throw .outOfRange

/-- the character `c`, after blanks -/
def separator (c : Char) : Reader Unit := fun cs =>
  match dropBlanks cs with
  | [] => .error .tooShort
  | d :: rest => if d = c then .ok ((), rest) else .error .invalid

/-- a year, after blanks; it has to fit 32 bits -/
def year : Reader Int := fun cs => do
  match dropBlanks cs with
  | '-' :: rest =>
    let (ds, cs) ← digits none rest
    let n := digitsValue ds
    if n ≤ 2147483648 then return (-n, cs) else throw .outOfRange
  | '+' :: rest =>
    let (ds, cs) ← digits none rest
    let n := digitsValue ds
    if n < 2147483648 then return (n, cs) else throw .outOfRange
  | rest =>
    let (ds, cs) ← digits (some 4) rest
    return (digitsValue ds, cs)

def calendarDate : Reader Date := fun cs => do
  let (y, cs) ← year cs
  let ((), cs) ← separator '-' cs
  let (m, cs) ← number 1 12 cs
  let ((), cs) ← separator '-' cs
  let (d, cs) ← number 1 31 cs
  return (⟨y, m, d⟩, cs)

/-- the nanoseconds of the first nine of some digits after the point -/
def nanosOfDigits (ds : List Char) : Nat :=
  let first := ds.take 9
  digitsValue first * 10 ^ (9 - first.length)

/-- a fraction, if there is a point -/
def fraction : Reader Nat := fun cs =>
  match cs with
  | '.' :: rest => do
    let (ds, cs) ← digits none rest
    return (nanosOfDigits ds, cs)
  | cs => .ok (0, cs)

/-- hour, minute and second as seconds of the day, and nanoseconds; second 60 is a leap second -/
def timeOfDay : Reader (Nat × Nat) := fun cs => do
  let (h, cs) ← number 0 23 cs
  let ((), cs) ← separator ':' cs
  let (m, cs) ← number 0 59 cs
  let ((), cs) ← separator ':' cs
  let (s, cs) ← number 0 60 cs
  let (n, cs) ← fraction cs
  let whole := 3600 * h + 60 * m
  return (if s = 60 then (whole + 59, nanosPerSecond + n) else (whole + s, n), cs)

def twoDigits : Reader (List Char) := fun cs =>
  match cs with
  | [] => .error .tooShort
  | [c] => .error (if c.toNat < 128 then .tooShort else .invalid)
  | a :: b :: rest => if a.isDigit && b.isDigit then .ok ([a, b], rest) else .error .invalid

def minusSign : Char := '−'

/-- an offset from universal time, in seconds -/
def offset : Reader Int := fun cs => do
  let (sign, cs) ← (match cs with
    | [] => .error .tooShort
    | c :: rest =>
      if c = '+' then .ok (1, rest)
      else if c = '-' ∨ c = minusSign then .ok (-1, rest)
      else .error .invalid : Except Fault (Int × List Char))
  let (hh, cs) ← twoDigits cs
  let (mm, cs) ← twoDigits (cs.dropWhile fun c => c = ':' || isBlank c)
  let m := digitsValue mm
  if 60 ≤ m then throw .outOfRange
  return (sign * (3600 * digitsValue hh + 60 * m : Nat), cs)

def zone : Reader Int := fun cs =>
  match cs with
  | 'Z' :: rest => .ok (0, rest)
  | 'z' :: rest => .ok (0, rest)
  | cs =>
    if (cs.take 3).map Char.toUpper = ['U', 'T', 'C'] then .ok (0, cs.drop 3) else offset cs

def dateTimeSeparator : Reader Unit := fun cs =>
  match cs with
  | [] => .error .tooShort
  | c :: rest => if c = 'T' ∨ c = 't' ∨ c = ' ' then .ok ((), rest) else .error .invalid

/-- the first and the last day, in local time -/
def firstDay : Int := (Date.mk (-262143) 1 1).toDays

def lastDay : Int := (Date.mk 262142 12 31).toDays

/-- the instant of a local time at an offset -/
def instantOf (date : Date) (secondOfDay nanos : Nat) (offset : Int) : Except Fault Instant :=
  let day := date.toDays
  if ¬ date.isValid ∨ day < firstDay ∨ lastDay < day ∨ secondsPerDay ≤ offset.natAbs then
    .error .outOfRange
  else
    match Instant.ofParts? (day * secondsPerDay + secondOfDay - offset) nanos with
    | some t => .ok t
    | none => .error .impossible

def readChars (cs : List Char) : Except Fault Instant := do
  let (date, cs) ← calendarDate cs
  let ((), cs) ← dateTimeSeparator cs
  let ((second, nanos), cs) ← timeOfDay cs
  let (offset, cs) ← zone (dropBlanks cs)
  if dropBlanks cs ≠ [] then throw .trailing
  instantOf date second nanos offset

def read (s : String) : Except Fault Instant := readChars s.toList

theorem firstDay_eq : firstDay * secondsPerDay = -8334601228800 := by decide

theorem lastDay_eq : lastDay * secondsPerDay + 86399 = 8210266876799 := by decide

end ChunkLedger.Rfc3339
