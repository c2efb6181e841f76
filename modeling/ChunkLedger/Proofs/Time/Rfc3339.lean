import ChunkLedger.Time.Rfc3339
import ChunkLedger.Proofs.Json.Number
import ChunkLedger.Proofs.Time.Calendar

/-!
# Instants are read back

Every instant is read from its text (`read_render`): years of any sign, fractions of 0, 3, 6 and 9
digits, and leap seconds.  Each reader takes off the front of the text what was written there, the
numbers because what follows them is no digit (`Stops`).
-/

namespace ChunkLedger.Rfc3339

-- powers of numbers are those of core, whatever else is in scope
attribute [local instance(high)] instPowNat

open ChunkLedger.Text (isBlank dropBlanks dropBlanks_eq_self)

/-- no digit in front -/
def Stops : List Char → Prop
  | [] => True
  | c :: _ => c.isDigit = false

/-! ## numbers -/

theorem isDigit_of_mem_padded {w n : Nat} {c : Char} (h : c ∈ padded w n) : c.isDigit = true := by
  rcases List.mem_append.mp h with h | h
  · rw [(List.mem_replicate.mp h).2]
    rfl
  · exact Json.isDigit_of_mem h

theorem length_padded {w n : Nat} (h : (Nat.toDigits 10 n).length ≤ w) : (padded w n).length = w := by
  rw [padded, List.length_append, List.length_replicate]
  omega

theorem padded_ne_nil {w n : Nat} (hw : 0 < w) : padded w n ≠ [] := by
  intro h
  have hlen := congrArg List.length h
  rw [padded, List.length_append, List.length_replicate, List.length_nil] at hlen
  omega

theorem digitsValue_eq (ds : List Char) : digitsValue ds = Nat.ofDigitChars 10 ds 0 := by
  rw [digitsValue, Nat.ofDigitChars_eq_foldl]
  simp only [Nat.mul_comm]
  rfl

theorem digitsValue_padded (w n : Nat) : digitsValue (padded w n) = n := by
  rw [digitsValue_eq, padded, Nat.ofDigitChars_append, Nat.ofDigitChars_replicate_zero,
    Nat.mul_zero, Nat.ofDigitChars_ten_toDigits]

theorem takeWhile_isDigit {ds : List Char} (h : ∀ c ∈ ds, c.isDigit = true) {rest : List Char}
    (hr : Stops rest) : (ds ++ rest).takeWhile Char.isDigit = ds := by
  rw [List.takeWhile_append_of_pos h]
  cases rest with
  | nil => rw [List.takeWhile_nil, List.append_nil]
  | cons c rest =>
    have hc : ¬ c.isDigit = true := by
      rw [show c.isDigit = false from hr]
      exact Bool.false_ne_true
    rw [List.takeWhile_cons_of_neg hc, List.append_nil]

theorem digits_append {most : Option Nat} {ds : List Char} (h : ∀ c ∈ ds, c.isDigit = true)
    (hne : ds ≠ []) (hmost : ∀ m ∈ most, ds.length ≤ m) {rest : List Char} (hr : Stops rest) :
    digits most (ds ++ rest) = .ok (ds, rest) := by
  cases most with
  | none =>
    unfold digits
    simp only [takeWhile_isDigit h hr, if_neg hne, List.drop_left]
  | some m =>
    have htake : ds.take m = ds := List.take_of_length_le (hmost m rfl)
    unfold digits
    simp only [takeWhile_isDigit h hr, htake, if_neg hne, List.drop_left]

theorem digits_none_padded {w n : Nat} (hw : 0 < w) {rest : List Char} (hr : Stops rest) :
    digits none (padded w n ++ rest) = .ok (padded w n, rest) := by
  refine digits_append (fun c hc => isDigit_of_mem_padded hc) (padded_ne_nil hw) ?_ hr
  intro m hm
  exact absurd hm (Option.not_mem_none m)

theorem digits_some_padded {w n : Nat} (hw : 0 < w) (h : (Nat.toDigits 10 n).length ≤ w)
    {rest : List Char} (hr : Stops rest) :
    digits (some w) (padded w n ++ rest) = .ok (padded w n, rest) := by
  refine digits_append (fun c hc => isDigit_of_mem_padded hc) (padded_ne_nil hw) ?_ hr
  intro m hm
  obtain rfl := Option.mem_some.mp hm
  exact Nat.le_of_eq (length_padded h)

theorem isBlank_of_isDigit {c : Char} (h : c.isDigit = true) : isBlank c = false := by
  have hc := Json.toNat_of_isDigit h
  simp only [isBlank, Bool.or_eq_false_iff, Bool.and_eq_false_iff, decide_eq_false_iff_not]
  omega

/-- a padded number begins with a digit -/
theorem padded_eq_cons {w : Nat} (n : Nat) (hw : 0 < w) :
    ∃ c cs, padded w n = c :: cs ∧ c.isDigit = true := by
  cases h : padded w n with
  | nil => exact absurd h (padded_ne_nil hw)
  | cons c cs => exact ⟨c, cs, rfl, isDigit_of_mem_padded (by rw [h]; exact List.mem_cons_self)⟩

theorem dropBlanks_padded {w n : Nat} (hw : 0 < w) (rest : List Char) :
    dropBlanks (padded w n ++ rest) = padded w n ++ rest := by
  obtain ⟨c, cs, h, hc⟩ := padded_eq_cons n hw
  rw [h, List.cons_append, dropBlanks_eq_self c _ (isBlank_of_isDigit hc)]

theorem number_padded {low high n : Nat} (hlow : low ≤ n) (hhigh : n ≤ high) (h : n < 100)
    {rest : List Char} (hr : Stops rest) : number low high (padded 2 n ++ rest) = .ok (n, rest) := by
  have hdigits := digits_some_padded (by decide)
    ((Nat.length_toDigits_le_iff (k := 2) (by decide) (by decide)).mpr h) hr
  rw [number, dropBlanks_padded (by decide), hdigits]
  show (if low ≤ digitsValue (padded 2 n) ∧ digitsValue (padded 2 n) ≤ high then
      pure (digitsValue (padded 2 n), rest)
    else throw .outOfRange : Except Fault (Nat × List Char)) = _
  rw [digitsValue_padded, if_pos ⟨hlow, hhigh⟩]
  rfl

theorem separator_cons {c : Char} (hc : isBlank c = false) (rest : List Char) :
    separator c (c :: rest) = .ok ((), rest) := by
  rw [separator, dropBlanks_eq_self c rest hc]
  exact if_pos rfl

/-! ## the parts -/

theorem year_plain {n : Nat} (h : n < 10000) {rest : List Char} (hr : Stops rest) :
    year (padded 4 n ++ rest) = .ok ((n : Int), rest) := by
  have hdigits := digits_some_padded (by decide)
    ((Nat.length_toDigits_le_iff (k := 4) (by decide) (by decide)).mpr h) hr
  obtain ⟨c, cs, hcons, hc⟩ := padded_eq_cons (w := 4) n (by decide)
  rw [year, dropBlanks_padded (by decide)]
  split
  · rename_i heq
    rw [hcons] at heq
    obtain ⟨rfl, -⟩ := List.cons.inj heq
    cases hc
  · rename_i heq
    rw [hcons] at heq
    obtain ⟨rfl, -⟩ := List.cons.inj heq
    cases hc
  · rw [hdigits]
    show Except.ok ((digitsValue (padded 4 n) : Int), rest) = _
    rw [digitsValue_padded]

theorem year_minus {n : Nat} (h : n ≤ 2147483648) {rest : List Char} (hr : Stops rest) :
    year ('-' :: padded 4 n ++ rest) = .ok (-(n : Int), rest) := by
  have hdigits := digits_none_padded (w := 4) (n := n) (by decide) hr
  rw [List.cons_append, year, dropBlanks_eq_self _ _ rfl]
  simp only [hdigits, digitsValue_padded, if_pos h, bind, Except.bind]
  rfl

theorem year_plus {n : Nat} (h : n < 2147483648) {rest : List Char} (hr : Stops rest) :
    year ('+' :: padded 4 n ++ rest) = .ok ((n : Int), rest) := by
  have hdigits := digits_none_padded (w := 4) (n := n) (by decide) hr
  rw [List.cons_append, year, dropBlanks_eq_self _ _ rfl]
  simp only [hdigits, digitsValue_padded, if_pos h, bind, Except.bind]
  rfl

theorem year_yearText {y : Int} (hlo : -262143 ≤ y) (hhi : y ≤ 262142) {rest : List Char}
    (hr : Stops rest) : year (yearText y ++ rest) = .ok (y, rest) := by
  unfold yearText
  split
  · rename_i h
    rw [year_plain (by omega) hr, Int.toNat_of_nonneg h.1]
  · rename_i h
    by_cases hneg : y < 0
    · rw [if_pos hneg, year_minus (by omega) hr, show -(y.natAbs : Int) = y by omega]
    · rw [if_neg hneg, year_plus (by omega) hr, show (y.natAbs : Int) = y by omega]

theorem fraction_point {w n : Nat} (hw : 0 < w) {rest : List Char} (hr : Stops rest) :
    fraction ('.' :: padded w n ++ rest) = .ok (nanosOfDigits (padded w n), rest) := by
  rw [List.cons_append, fraction]
  simp only [digits_none_padded hw hr, bind, Except.bind]
  rfl

theorem nanosOfDigits_padded {w n : Nat} (hw : w ≤ 9) (h : (Nat.toDigits 10 n).length ≤ w) :
    nanosOfDigits (padded w n) = n * 10 ^ (9 - w) := by
  have hlen := length_padded h
  rw [nanosOfDigits, List.take_of_length_le (by omega), digitsValue_padded, hlen]

theorem fraction_fractionText {n : Nat} (hn : n < nanosPerSecond) (rest : List Char) :
    fraction (fractionText .exact n ++ 'Z' :: rest) = .ok (n, 'Z' :: rest) := by
  have hz : Stops ('Z' :: rest) := rfl
  have hn' : n < 1000000000 := hn
  unfold fractionText
  simp only
  split
  · rename_i h
    rw [h]
    rfl
  · split
    · rename_i h
      have hlt : n / 1000000 < 1000 := by omega
      rw [fraction_point (by decide) hz, nanosOfDigits_padded (by decide)
        ((Nat.length_toDigits_le_iff (by decide) (by decide)).mpr hlt)]
      congr 2
      show n / 1000000 * 1000000 = n
      omega
    · split
      · rename_i h
        have hlt : n / 1000 < 1000000 := by omega
        rw [fraction_point (by decide) hz, nanosOfDigits_padded (by decide)
          ((Nat.length_toDigits_le_iff (by decide) (by decide)).mpr hlt)]
        congr 2
        show n / 1000 * 1000 = n
        omega
      · rw [fraction_point (by decide) hz, nanosOfDigits_padded (by decide)
          ((Nat.length_toDigits_le_iff (by decide) (by decide)).mpr hn')]
        congr 2
        show n * 1 = n
        omega

/-! ## the whole -/

theorem calendarDate_append {y : Int} {m d : Nat} (hlo : -262143 ≤ y) (hhi : y ≤ 262142)
    (hm : 1 ≤ m ∧ m ≤ 12) (hd : 1 ≤ d ∧ d ≤ 31) (rest : List Char) (hr : Stops rest) :
    calendarDate (yearText y ++ ('-' :: (padded 2 m ++ ('-' :: (padded 2 d ++ rest)))))
      = .ok (⟨y, m, d⟩, rest) := by
  have hdash (cs : List Char) : Stops ('-' :: cs) := rfl
  have hsep (cs : List Char) : separator '-' ('-' :: cs) = .ok ((), cs) := separator_cons rfl cs
  simp only [calendarDate, year_yearText hlo hhi (hdash _), hsep,
    number_padded hm.1 hm.2 (by omega) (hdash _), number_padded hd.1 hd.2 (by omega) hr,
    bind, Except.bind, pure, Except.pure]

theorem timeOfDay_append {h m s n : Nat} (hh : h < 24) (hm : m < 60) (hs : s ≤ 60)
    (hn : n < nanosPerSecond) (rest : List Char) :
    timeOfDay (padded 2 h ++ (':' :: (padded 2 m ++ (':' :: (padded 2 s ++
        (fractionText .exact n ++ 'Z' :: rest))))))
      = .ok (if s = 60 then (3600 * h + 60 * m + 59, nanosPerSecond + n)
          else (3600 * h + 60 * m + s, n), 'Z' :: rest) := by
  have hcolon (cs : List Char) : Stops (':' :: cs) := rfl
  have hsep (cs : List Char) : separator ':' (':' :: cs) = .ok ((), cs) := separator_cons rfl cs
  have hfraction : Stops (fractionText .exact n ++ 'Z' :: rest) := by
    unfold fractionText
    simp only
    split
    · rfl
    · split
      · rfl
      · split <;> rfl
  simp only [timeOfDay, hsep,
    number_padded (Nat.zero_le h) (Nat.le_of_lt_succ hh) (by omega) (hcolon _),
    number_padded (Nat.zero_le m) (Nat.le_of_lt_succ hm) (by omega) (hcolon _),
    number_padded (Nat.zero_le s) hs (by omega) hfraction, fraction_fractionText hn,
    bind, Except.bind, pure, Except.pure]

/-- hour, minute and second make up the second of the day and the nanoseconds -/
theorem clock_eq (t : Instant) :
    (if t.second = 60 then (3600 * t.hour + 60 * t.minute + 59, nanosPerSecond + t.fraction)
      else (3600 * t.hour + 60 * t.minute + t.second, t.fraction)) = (t.secondOfDay, t.nanos) := by
  have hday : 3600 * (t.secondOfDay / 3600) + 60 * (t.secondOfDay / 60 % 60) + t.secondOfDay % 60
      = t.secondOfDay := by
    omega
  have hnanos := t.nanos_lt
  unfold Instant.second Instant.hour Instant.minute Instant.fraction
  by_cases hleap : nanosPerSecond ≤ t.nanos
  · -- inside a leap second
    have h59 : t.secondOfDay % 60 = 59 := by
      have h := t.leap hleap
      unfold Instant.secondOfDay secondsPerDay
      omega
    have hfraction : t.nanos % nanosPerSecond = t.nanos - nanosPerSecond := by
      rw [Nat.mod_eq_sub_mod hleap]
      exact Nat.mod_eq_of_lt (by omega)
    rw [h59] at hday
    rw [if_pos hleap, h59, if_pos rfl, hday, hfraction, Nat.add_sub_cancel' hleap]
  · have hlt : t.secondOfDay % 60 < 60 := Nat.mod_lt _ (by decide)
    rw [if_neg hleap, if_neg (by omega), Nat.add_zero, hday,
      Nat.mod_eq_of_lt (Nat.lt_of_not_le hleap)]

/-- an instant is that of its date and time of day -/
theorem instantOf_date (t : Instant) : instantOf t.date t.secondOfDay t.nanos 0 = .ok t := by
  have hdays : t.date.toDays = t.seconds / secondsPerDay := Date.toDays_ofDays _
  have hvalid : t.date.isValid = true := Date.isValid_ofDays _
  have hfirst := firstDay_eq
  have hlast := lastDay_eq
  have h1 := t.first_le
  have h2 := t.le_last
  have hseconds : t.date.toDays * secondsPerDay + t.secondOfDay - 0 = t.seconds := by
    rw [hdays]
    unfold Instant.secondOfDay secondsPerDay
    omega
  have hrange : ¬ (¬ t.date.isValid = true ∨ t.date.toDays < firstDay ∨
      lastDay < t.date.toDays ∨ secondsPerDay ≤ ((0 : Int).natAbs : Int)) := by
    rw [hdays]
    unfold secondsPerDay at *
    simp only [hvalid, not_true_eq_false, false_or, not_or]
    omega
  unfold instantOf
  simp only [if_neg hrange, hseconds, Instant.ofParts?_self]

/-- **Every instant is read from its text.** -/
theorem read_render (t : Instant) : read (render t) = .ok t := by
  have hmonth : 1 ≤ t.date.month ∧ t.date.month ≤ 12 := Date.month_ofDays _
  have hday : 1 ≤ t.date.day ∧ t.date.day ≤ 31 := Date.day_ofDays _
  have hdate := calendarDate_append t.year_date.1 t.year_date.2 hmonth hday
    ('T' :: (padded 2 t.hour ++ (':' :: (padded 2 t.minute ++ (':' :: (padded 2 t.second ++
      (fractionText .exact t.fraction ++ ['Z']))))))) rfl
  have hhour : t.hour < 24 := by
    unfold Instant.hour Instant.secondOfDay secondsPerDay
    omega
  have hminute : t.minute < 60 := Nat.mod_lt _ (by decide)
  have htime := timeOfDay_append hhour hminute t.second_le t.fraction_lt []
  rw [clock_eq] at htime
  have hchars : chars .exact t = yearText t.date.year ++ ('-' :: (padded 2 t.date.month ++
      ('-' :: (padded 2 t.date.day ++ ('T' :: (padded 2 t.hour ++ (':' :: (padded 2 t.minute ++
      (':' :: (padded 2 t.second ++ (fractionText .exact t.fraction ++ ['Z']))))))))))) := by
    simp only [chars, List.append_assoc, List.cons_append]
  have hsep (cs : List Char) : dateTimeSeparator ('T' :: cs) = .ok ((), cs) := rfl
  have hzone : zone (dropBlanks ['Z']) = .ok (0, []) := rfl
  have hend : ¬ dropBlanks [] ≠ [] := fun h => h rfl
  rw [read, render, String.toList_ofList, hchars, readChars, hdate]
  simp only [hsep, htime, hzone, if_neg hend, bind, Except.bind]
  exact instantOf_date t

end ChunkLedger.Rfc3339
