/-!
# The calendar

Days of the proleptic Gregorian calendar, counted from 1 January 1970.

* `daysBeforeYear y`   days from the beginning of the year 1 to the beginning of the year `y`;
* `Date.toDays`        the number of a date;
* `Date.ofDays`        the date of a number: the year by proportion, corrected by at most one, then
                       the month by walking along the months of the year.
-/

namespace ChunkLedger

def isLeap (year : Int) : Bool := year % 4 = 0 && (year % 100 ≠ 0 || year % 400 = 0)

def monthLengths (leap : Bool) : List Nat :=
  [31, if leap then 29 else 28, 31, 30, 31, 30, 31, 31, 30, 31, 30, 31]

def monthLength (year : Int) (month : Nat) : Nat := (monthLengths (isLeap year)).getD (month - 1) 0

def daysBeforeMonth (year : Int) (month : Nat) : Nat :=
  ((monthLengths (isLeap year)).take (month - 1)).foldl (· + ·) 0

def daysBeforeYear (year : Int) : Int :=
  365 * (year - 1) + (year - 1) / 4 - (year - 1) / 100 + (year - 1) / 400

/-- days from the beginning of the year 1 to 1 January 1970 -/
def epochDay : Int := 719162

/-- a year is one day longer if it is a leap year -/
theorem daysBeforeYear_succ (y : Int) :
    daysBeforeYear (y + 1) = daysBeforeYear y + (if isLeap y then 366 else 365) := by
  unfold daysBeforeYear isLeap
  split <;> rename_i h <;> simp at h <;> omega

structure Date where
  year : Int
  month : Nat
  day : Nat
deriving DecidableEq, Repr

namespace Date

def isValid (d : Date) : Bool :=
  1 ≤ d.month && d.month ≤ 12 && 1 ≤ d.day && d.day ≤ monthLength d.year d.month

def toDays (d : Date) : Int :=
  daysBeforeYear d.year + daysBeforeMonth d.year d.month + (d.day - 1) - epochDay

/-- the year of day `n`, counted from the beginning of the year 1 -/
def yearOf (n : Int) : Int :=
  let y := 400 * n / 146097 + 1
  if n < daysBeforeYear y then y - 1
  else if daysBeforeYear (y + 1) ≤ n then y + 1
  else y

/-- the month, from `month` on, and the day in it of the day `n` (from 0) of what is left of the
year -/
def monthOf : (lengths : List Nat) → (month n : Nat) → Nat × Nat
  | [], month, n => (month, n + 1)
  | l :: ls, month, n => if n < l then (month, n + 1) else monthOf ls (month + 1) (n - l)

def ofDays (n : Int) : Date :=
  let day := n + epochDay
  let year := yearOf day
  let (m, d) := monthOf (monthLengths (isLeap year)) 1 (day - daysBeforeYear year).toNat
  ⟨year, m, d⟩

/-- a number of days falls into the year found for it -/
theorem yearOf_spec (n : Int) :
    daysBeforeYear (yearOf n) ≤ n ∧ n < daysBeforeYear (yearOf n + 1) := by
  unfold yearOf
  simp only
  split
  · rename_i h
    unfold daysBeforeYear at h ⊢
    omega
  · split
    · rename_i h h'
      unfold daysBeforeYear at h h' ⊢
      omega
    · rename_i h h'
      omega

end Date

end ChunkLedger
