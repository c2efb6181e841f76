import ChunkLedger.Difficulty
import Mathlib.Data.List.GetD
import Mathlib.Data.List.Induction

/-!
# A difficulty counts zero bits

A digest is compared with its target as a number of 256 bits.  The bits of this number are those of
the bytes, from the most significant bit of the first byte on (`bit_eq_testBit`).  The target of a
difficulty below 256 is one less than a power of two, and from there on it is zero, so a digest is
at most the target if it is below a power of two (`meetsTarget_target_iff`).  A number is below a
power of two if it has no bit from there on; these are the first bits of the digest, as many as the
difficulty says (`meetsTarget_iff_zeros`).
-/

namespace ChunkLedger

-- powers of numbers are those of core, whatever else is in scope
attribute [local instance(high)] instPowNat

/-- the bits of a number, most significant first, are those of its bytes -/
theorem Bytes.testBit_ofBigEndian (bs : Bytes) {k : Nat} (hk : k < 8 * bs.length) :
    (ofBigEndian bs).testBit (8 * bs.length - 1 - k)
      = (bs.getD (k / 8) 0).toNat.testBit (7 - k % 8) := by
  induction bs using List.reverseRecOn with
  | nil => simp at hk
  | append_singleton bs b ih =>
    have hb : b.toNat < 2 ^ 8 := b.toNat_lt
    rw [List.length_append, List.length_singleton] at hk ⊢
    rw [ofBigEndian_append_singleton, Nat.mul_comm, Nat.testBit_two_pow_mul_add _ hb]
    by_cases hlast : k < 8 * bs.length
    · -- a bit of the bytes before
      have hpos : 8 * (bs.length + 1) - 1 - k - 8 = 8 * bs.length - 1 - k := by omega
      rw [if_neg (by omega), hpos, ih hlast, List.getD_append _ _ _ _ (by omega)]
    · have hbyte : k / 8 = bs.length := by omega
      have hpos : 8 * (bs.length + 1) - 1 - k = 7 - k % 8 := by omega
      rw [if_pos (by omega), hpos, hbyte, List.getD_append_right _ _ _ _ (Nat.le_refl _),
        Nat.sub_self]
      rfl

namespace Digest

/-- bit `k`, counted from the most significant bit of the first byte -/
def bit (d : Digest) (k : Nat) : Bool := (d.bytes.getD (k / 8) 0).toNat.testBit (7 - k % 8)

theorem bit_eq_testBit (d : Digest) {k : Nat} (hk : k < digestBits) :
    d.bit k = d.toNat.testBit (digestBits - 1 - k) := by
  have h := Bytes.testBit_ofBigEndian d.bytes (k := k) (by rw [d.length_bytes]; exact hk)
  rw [d.length_bytes] at h
  exact h.symm

/-- a digest below a power of two begins with zeros -/
theorem toNat_lt_two_pow_iff (d : Digest) (n : Nat) :
    d.toNat < 2 ^ (digestBits - n) ↔ ∀ k < min n digestBits, d.bit k = false := by
  constructor
  · intro h k hk
    rw [d.bit_eq_testBit (by omega)]
    apply Nat.testBit_lt_two_pow
    exact Nat.lt_of_lt_of_le h (Nat.pow_le_pow_right (by decide) (by omega))
  · intro h
    apply Nat.lt_pow_two_of_testBit
    intro i hi
    by_cases hlt : i < digestBits
    · have hpos : digestBits - 1 - (digestBits - 1 - i) = i := by omega
      have hbit := h (digestBits - 1 - i) (by omega)
      rwa [d.bit_eq_testBit (by omega), hpos] at hbit
    · apply Nat.testBit_lt_two_pow
      exact Nat.lt_of_lt_of_le d.toNat_lt (Nat.pow_le_pow_right (by decide) (by omega))

end Digest

namespace Difficulty

theorem meetsTarget_target_iff (h : Digest) (d : Nat) :
    meetsTarget h (target d) = true ↔ h.toNat < 2 ^ (digestBits - d) := by
  rw [meetsTarget_iff]
  by_cases hd : digestBits ≤ d
  · rw [target_of_ge hd, Nat.sub_eq_zero_of_le hd, Nat.pow_zero, Nat.lt_one_iff, Nat.le_zero_eq]
  · have hd : d < digestBits := Nat.lt_of_not_le hd
    have hsplit : 2 ^ digestBits = 2 ^ (digestBits - d) * 2 ^ d := by
      rw [← Nat.pow_add, Nat.sub_add_cancel (Nat.le_of_lt hd)]
    have hpos : 0 < 2 ^ digestBits := Nat.two_pow_pos _
    calc h.toNat ≤ target d
      _ ↔ h.toNat * 2 ^ d ≤ 2 ^ digestBits - 1 := by
        rw [target_of_lt hd, Nat.le_div_iff_mul_le (Nat.two_pow_pos d)]
      _ ↔ h.toNat * 2 ^ d < 2 ^ (digestBits - d) * 2 ^ d := by
        rw [← hsplit]
        omega
      _ ↔ h.toNat < 2 ^ (digestBits - d) := Nat.mul_lt_mul_right (Nat.two_pow_pos d)

/-- **A difficulty counts zero bits.**  A digest meets a difficulty if it begins with so many zeros,
or is zero altogether if there are no more bits; so it meets every lower difficulty as well. -/
theorem meetsTarget_iff_zeros (h : Digest) (d : Nat) :
    (meetsTarget h (target d) = true ↔ ∀ k < min d digestBits, h.bit k = false) ∧
    ∀ e ≤ d, meetsTarget h (target d) = true → meetsTarget h (target e) = true := by
  have hbits (n : Nat) : meetsTarget h (target n) = true ↔ ∀ k < min n digestBits, h.bit k = false :=
    (meetsTarget_target_iff h n).trans (h.toNat_lt_two_pow_iff n)
  refine ⟨hbits d, ?_⟩
  intro e he hmeets
  rw [hbits] at hmeets ⊢
  intro k hk
  exact hmeets k (by omega)

/-- a digest that begins with five zeros -/
def fiveZeros : Digest := ⟨7 :: List.replicate 31 255, rfl⟩

theorem meetsTarget_iff_zeros_five :
    meetsTarget fiveZeros (target 5) = true ∧ meetsTarget fiveZeros (target 4) = true ∧
      meetsTarget fiveZeros (target 6) = false ∧ meetsTarget Digest.zero (target 300) = true := by
  obtain ⟨hfive, hlower⟩ := meetsTarget_iff_zeros fiveZeros 5
  have hmeets : meetsTarget fiveZeros (target 5) = true := hfive.mpr (by decide)
  refine ⟨hmeets, hlower 4 (by decide) hmeets, ?_, ?_⟩
  · rw [Bool.eq_false_iff, ne_eq, (meetsTarget_iff_zeros fiveZeros 6).1]
    decide
  · exact (meetsTarget_iff_zeros Digest.zero 300).1.mpr (by decide +kernel)

end Difficulty

end ChunkLedger
