import ChunkLedger.Time.Instant

/-!
# Days and dates

The date of a day is a date that exists, and its number is that of the day (`toDays_ofDays`,
`isValid_ofDays`).  The year is found by `Date.yearOf_spec`; the month is the place in the year's
month lengths where what is left of the year falls (`Falls`).
-/

namespace ChunkLedger

/-- the days before month `i` of some, counted from 0 -/
def daysBefore (lengths : List Nat) (i : Nat) : Nat := (lengths.take i).foldl (· + ·) 0

theorem foldl_add (a : Nat) (ls : List Nat) :
    ls.foldl (· + ·) a = a + ls.foldl (· + ·) 0 := by
  induction ls generalizing a with
  | nil => rfl
  | cons l ls ih =>
    rw [List.foldl_cons, List.foldl_cons, ih, ih (0 + l)]
    omega

theorem daysBefore_succ (l : Nat) (ls : List Nat) (i : Nat) :
    daysBefore (l :: ls) (i + 1) = l + daysBefore ls i := by
  rw [daysBefore, List.take_succ_cons, List.foldl_cons, foldl_add, Nat.zero_add]
  rfl

theorem daysBeforeMonth_eq (year : Int) (i : Nat) :
    daysBeforeMonth year (1 + i) = daysBefore (monthLengths (isLeap year)) i := by
  rw [daysBeforeMonth, daysBefore, Nat.add_sub_cancel_left]

/-- the months make up the year -/
theorem daysBefore_monthLengths (leap : Bool) :
    daysBefore (monthLengths leap) 12 = if leap then 366 else 365 := by
  cases leap <;> rfl

theorem daysBeforeYear_mono {y z : Int} (h : y ≤ z) : daysBeforeYear y ≤ daysBeforeYear z := by
  obtain ⟨k, rfl⟩ := Int.le.dest h
  induction k with
  | zero => simp
  | succ k ih =>
    have hk := ih (by omega)
    have hs := daysBeforeYear_succ (y + k)
    have e : y + (k + 1 : Nat) = y + k + 1 := by omega
    rw [e, hs]
    split <;> omega

/-- day `n`, counted from 0, is in month `i` of some, counted from 0 -/
def Falls (lengths : List Nat) (n i : Nat) : Prop :=
  i < lengths.length ∧ daysBefore lengths i ≤ n ∧ n - daysBefore lengths i < lengths.getD i 0

namespace Date

/-- the month found for a day is the one where it falls -/
theorem monthOf_spec {ls : List Nat} (month : Nat) {n : Nat}
    (h : n < daysBefore ls ls.length) :
    ∃ i, Falls ls n i ∧ monthOf ls month n = (month + i, n - daysBefore ls i + 1) := by
  induction ls generalizing month n with
  | nil => exact absurd h (Nat.not_lt_zero n)
  | cons l ls ih =>
    unfold monthOf
    by_cases hl : n < l
    · rw [if_pos hl]
      exact ⟨0, ⟨Nat.succ_pos _, Nat.zero_le _, hl⟩, rfl⟩
    · rw [if_neg hl]
      rw [List.length_cons, daysBefore_succ] at h
      obtain ⟨i, ⟨hi, hle, hlt⟩, heq⟩ := ih (month + 1) (n := n - l) (by omega)
      refine ⟨i + 1, ⟨Nat.succ_lt_succ hi, ?_, ?_⟩, ?_⟩
      · rw [daysBefore_succ]
        omega
      · rw [daysBefore_succ, List.getD_cons_succ]
        omega
      · rw [heq, daysBefore_succ, Nat.sub_sub, Nat.add_assoc, Nat.add_comm 1 i]

/-- the date of day `n`, counted from the beginning of 1970 -/
theorem ofDays_spec (n : Int) :
    ∃ i r : Nat, Falls (monthLengths (isLeap (ofDays n).year)) r i ∧
      (ofDays n).month = 1 + i ∧
      (ofDays n).day = r - daysBefore (monthLengths (isLeap (ofDays n).year)) i + 1 ∧
      n + epochDay = daysBeforeYear (ofDays n).year + r := by
  obtain ⟨hle, hlt⟩ := yearOf_spec (n + epochDay)
  have hyear : (ofDays n).year = yearOf (n + epochDay) := rfl
  rw [hyear]
  generalize yearOf (n + epochDay) = y at hle hlt hyear
  have hr : (n + epochDay - daysBeforeYear y).toNat
      < daysBefore (monthLengths (isLeap y)) (monthLengths (isLeap y)).length := by
    show _ < daysBefore (monthLengths (isLeap y)) 12
    rw [daysBeforeYear_succ] at hlt
    rw [daysBefore_monthLengths]
    cases hleap : isLeap y with
    | true => rw [hleap, if_pos rfl] at hlt; rw [if_pos rfl]; omega
    | false =>
      rw [hleap, if_neg Bool.false_ne_true] at hlt
      rw [if_neg Bool.false_ne_true]
      omega
  obtain ⟨i, hfalls, heq⟩ := monthOf_spec 1 hr
  have hmonth : monthOf (monthLengths (isLeap y)) 1 (n + epochDay - daysBeforeYear y).toNat
      = ((ofDays n).month, (ofDays n).day) := by
    rw [← hyear]
    rfl
  rw [heq] at hmonth
  refine ⟨i, _, hfalls, (congrArg Prod.fst hmonth).symm, (congrArg Prod.snd hmonth).symm, ?_⟩
  omega

/-- the date of a day has the number of the day -/
theorem toDays_ofDays (n : Int) : (ofDays n).toDays = n := by
  obtain ⟨i, r, ⟨-, hle, -⟩, hm, hd, hn⟩ := ofDays_spec n
  rw [toDays, hm, hd, daysBeforeMonth_eq]
  omega

/-- the date of a day exists -/
theorem isValid_ofDays (n : Int) : (ofDays n).isValid = true := by
  obtain ⟨i, r, ⟨hi, hle, hlt⟩, hm, hd, -⟩ := ofDays_spec n
  have hi12 : i < 12 := hi
  simp only [isValid, monthLength, hm, hd, Nat.add_sub_cancel_left, Bool.and_eq_true,
    decide_eq_true_eq]
  omega

theorem monthLengths_le (leap : Bool) : ∀ i < 12, (monthLengths leap).getD i 0 ≤ 31 := by
  cases leap <;> decide

theorem month_ofDays (n : Int) : 1 ≤ (ofDays n).month ∧ (ofDays n).month ≤ 12 := by
  obtain ⟨i, r, ⟨hi, -, -⟩, hm, -, -⟩ := ofDays_spec n
  have hi12 : i < 12 := hi
  omega

theorem day_ofDays (n : Int) : 1 ≤ (ofDays n).day ∧ (ofDays n).day ≤ 31 := by
  obtain ⟨i, r, ⟨hi, -, hlt⟩, -, hd, -⟩ := ofDays_spec n
  have hlen := monthLengths_le (isLeap (ofDays n).year) i hi
  omega

end Date

namespace Instant

/-- an instant's date lies in the years from -262143 to 262142 -/
theorem year_date (t : Instant) : -262143 ≤ t.date.year ∧ t.date.year ≤ 262142 := by
  obtain ⟨hlo, hhi⟩ := Date.yearOf_spec (t.seconds / secondsPerDay + epochDay)
  have h1 := t.first_le
  have h2 := t.le_last
  show -262143 ≤ Date.yearOf (t.seconds / secondsPerDay + epochDay) ∧
    Date.yearOf (t.seconds / secondsPerDay + epochDay) ≤ 262142
  generalize Date.yearOf (t.seconds / secondsPerDay + epochDay) = y at hlo hhi
  have hday : -96465292 ≤ t.seconds / secondsPerDay ∧ t.seconds / secondsPerDay ≤ 95026236 := by
    unfold secondsPerDay
    omega
  have hepoch : epochDay = 719162 := rfl
  have hfirst : daysBeforeYear (-262143) = -95746130 := rfl
  have hlast : daysBeforeYear 262143 = 95745399 := rfl
  constructor
  · by_cases hy : -262143 ≤ y
    · exact hy
    · have hmono := daysBeforeYear_mono (show y + 1 ≤ -262143 by omega)
      omega
  · by_cases hy : y ≤ 262142
    · exact hy
    · have hmono := daysBeforeYear_mono (show 262143 ≤ y by omega)
      omega

end Instant

end ChunkLedger
