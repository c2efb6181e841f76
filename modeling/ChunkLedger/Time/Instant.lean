import ChunkLedger.Time.Calendar

/-!
# Instants

An instant of universal time, to the nanosecond: whole seconds since 1 January 1970 and the
nanoseconds into the second.  Inside a leap second the seconds are those of the second before
(`:59`) and the nanoseconds run on from one thousand million, so that instants are ordered by the
pair.  The years run from -262143 to 262142.
-/

namespace ChunkLedger

def nanosPerSecond : Nat := 1000000000

def secondsPerDay : Int := 86400

structure Instant where
  seconds : Int
  nanos : Nat
  first_le : -8334601228800 ≤ seconds
  le_last : seconds ≤ 8210266876799
  nanos_lt : nanos < 2 * nanosPerSecond
  /-- only a minute's last second can be followed by a leap second -/
  leap : nanosPerSecond ≤ nanos → seconds % 60 = 59
deriving DecidableEq

namespace Instant

@[ext] theorem ext {s t : Instant} (hs : s.seconds = t.seconds) (hn : s.nanos = t.nanos) :
    s = t := by
  cases s; cases t; cases hs; cases hn; rfl

def epoch : Instant := ⟨0, 0, by decide, by decide, by decide, by decide⟩

/-- the instant of these parts, if it exists -/
def ofParts? (seconds : Int) (nanos : Nat) : Option Instant :=
  if h : (-8334601228800 ≤ seconds ∧ seconds ≤ 8210266876799) ∧
      nanos < 2 * nanosPerSecond ∧ (nanosPerSecond ≤ nanos → seconds % 60 = 59) then
    some ⟨seconds, nanos, h.1.1, h.1.2, h.2.1, h.2.2⟩
  else none

@[simp] theorem ofParts?_self (t : Instant) : ofParts? t.seconds t.nanos = some t :=
  dif_pos ⟨⟨t.first_le, t.le_last⟩, t.nanos_lt, t.leap⟩

def le (s t : Instant) : Bool :=
  s.seconds < t.seconds || (s.seconds = t.seconds && s.nanos ≤ t.nanos)

/-! ## parts -/

def date (t : Instant) : Date := Date.ofDays (t.seconds / secondsPerDay)

def secondOfDay (t : Instant) : Nat := (t.seconds % secondsPerDay).toNat

def hour (t : Instant) : Nat := t.secondOfDay / 3600

def minute (t : Instant) : Nat := t.secondOfDay / 60 % 60

/-- the second of the minute; 60 in a leap second -/
def second (t : Instant) : Nat :=
  t.secondOfDay % 60 + if nanosPerSecond ≤ t.nanos then 1 else 0

/-- the nanoseconds into the second shown by `second` -/
def fraction (t : Instant) : Nat := t.nanos % nanosPerSecond

theorem second_le (t : Instant) : t.second ≤ 60 := by
  unfold second
  have : t.secondOfDay % 60 < 60 := Nat.mod_lt _ (by decide)
  split <;> omega

theorem fraction_lt (t : Instant) : t.fraction < nanosPerSecond := Nat.mod_lt _ (by decide)

end Instant

end ChunkLedger
