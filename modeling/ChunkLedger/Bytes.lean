/-!
# Byte strings

A byte string is a list of bytes.  Numbers enter a hash with a fixed width and the most
significant byte first: `bigEndian w n` is the last `w` base-256 digits of `n`, and
`ofBigEndian` reads them back (`ofBigEndian_bigEndian`).
-/

namespace ChunkLedger

-- powers of numbers are those of core, whatever else is in scope
attribute [local instance(high)] instPowNat

abbrev Bytes := List UInt8

namespace Bytes

/-- the last `w` base-256 digits of `n`, most significant first, before `rest` -/
def digitsBefore : (w n : Nat) → (rest : Bytes) → Bytes
  | 0, _, rest => rest
  | w+1, n, rest => digitsBefore w (n / 256) (UInt8.ofNat n :: rest)

/-- the last `w` base-256 digits of `n`, most significant first -/
def bigEndian (w n : Nat) : Bytes := digitsBefore w n []

/-- the number whose base-256 digits are `bs`, most significant first -/
def ofBigEndian (bs : Bytes) : Nat := bs.foldl (fun n b => n * 256 + b.toNat) 0

theorem digitsBefore_eq (w n : Nat) (rest : Bytes) :
    digitsBefore w n rest = bigEndian w n ++ rest := by
  unfold bigEndian
  induction w generalizing n rest with
  | zero => rfl
  | succ w ih =>
    show digitsBefore w (n / 256) (UInt8.ofNat n :: rest)
      = digitsBefore w (n / 256) [UInt8.ofNat n] ++ rest
    rw [ih, ih (n / 256) [UInt8.ofNat n]]
    simp

theorem bigEndian_succ (w n : Nat) :
    bigEndian (w+1) n = bigEndian w (n / 256) ++ [UInt8.ofNat n] :=
  digitsBefore_eq w (n / 256) [UInt8.ofNat n]

@[simp] theorem length_bigEndian (w n : Nat) : (bigEndian w n).length = w := by
  induction w generalizing n with
  | zero => rfl
  | succ w ih => rw [bigEndian_succ, List.length_append, ih]; rfl

theorem ofBigEndian_append_singleton (bs : Bytes) (b : UInt8) :
    ofBigEndian (bs ++ [b]) = ofBigEndian bs * 256 + b.toNat := by
  simp [ofBigEndian, List.foldl_append]

/-- reading back gives the number without what lies above the width -/
theorem ofBigEndian_bigEndian (w n : Nat) : ofBigEndian (bigEndian w n) = n % 256 ^ w := by
  induction w generalizing n with
  | zero => simp [bigEndian, digitsBefore, ofBigEndian, Nat.mod_one]
  | succ w ih =>
    have hb : (UInt8.ofNat n).toNat = n % 256 := UInt8.toNat_ofNat'
    rw [bigEndian_succ, ofBigEndian_append_singleton, ih, hb, Nat.pow_succ,
      Nat.mul_comm (256 ^ w), Nat.mod_mul]
    omega

/-- numbers that fit the width are told apart by their digits -/
theorem bigEndian_inj {w m n : Nat} (hm : m < 256 ^ w) (hn : n < 256 ^ w)
    (h : bigEndian w m = bigEndian w n) : m = n := by
  have e := congrArg ofBigEndian h
  rwa [ofBigEndian_bigEndian, ofBigEndian_bigEndian, Nat.mod_eq_of_lt hm,
    Nat.mod_eq_of_lt hn] at e

theorem ofBigEndian_lt (bs : Bytes) : ofBigEndian bs < 256 ^ bs.length := by
  suffices h : ∀ (rs : Bytes), ofBigEndian rs.reverse < 256 ^ rs.length by
    simpa using h bs.reverse
  intro rs
  induction rs with
  | nil => simp [ofBigEndian]
  | cons b rs ih =>
    have hb : b.toNat < 256 := b.toNat_lt
    rw [List.reverse_cons, ofBigEndian_append_singleton, List.length_cons, Nat.pow_succ]
    omega

end Bytes

def utf8 (s : String) : Bytes := s.toUTF8.toList

def ofUtf8? (bs : Bytes) : Option String := String.fromUTF8? ⟨bs.toArray⟩

end ChunkLedger
