import ChunkLedger.Hash.Digest

/-!
# Difficulty

A difficulty is a count of leading zero bits.  Its target is the largest number of 256 bits that
begins with so many zeros; a digest meets the target when it is at most the target as a number.
From 256 on the target is zero.
-/

namespace ChunkLedger.Difficulty

-- powers of numbers are those of core, whatever else is in scope
attribute [local instance(high)] instPowNat

/-- the largest digest value that still qualifies -/
def target (difficulty : Nat) : Nat :=
  if digestBits ≤ difficulty then 0 else (2 ^ digestBits - 1) >>> difficulty

/-- `d` is at most `target` as a number -/
def meetsTarget (d : Digest) (target : Nat) : Bool := d.toNat ≤ target

def meets (d : Digest) (difficulty : Nat) : Bool := meetsTarget d (target difficulty)

theorem target_of_ge {d : Nat} (h : digestBits ≤ d) : target d = 0 := if_pos h

theorem target_of_lt {d : Nat} (h : d < digestBits) :
    target d = (2 ^ digestBits - 1) / 2 ^ d := by
  rw [target, if_neg (by omega), Nat.shiftRight_eq_div_pow]

theorem target_zero : target 0 = 2 ^ digestBits - 1 := rfl

theorem meetsTarget_iff {d : Digest} {t : Nat} : meetsTarget d t = true ↔ d.toNat ≤ t :=
  decide_eq_true_iff

/-- without a difficulty every digest will do -/
theorem meets_zero (d : Digest) : meets d 0 = true := by
  have hlt := d.toNat_lt
  rw [meets, meetsTarget_iff, target_zero]
  omega

/-- a higher difficulty has a lower target -/
theorem target_anti {d e : Nat} (h : d ≤ e) : target e ≤ target d := by
  by_cases he : digestBits ≤ e
  · rw [target_of_ge he]; exact Nat.zero_le _
  · rw [target_of_lt (by omega), target_of_lt (by omega)]
    exact Nat.div_le_div_left (Nat.pow_le_pow_right (by decide) h) (Nat.two_pow_pos d)

/-- a digest that meets a difficulty meets every lower one -/
theorem meets_of_le {h : Digest} {d e : Nat} (hde : d ≤ e) (hm : meets h e = true) :
    meets h d = true :=
  meetsTarget_iff.mpr (Nat.le_trans (meetsTarget_iff.mp hm) (target_anti hde))

end ChunkLedger.Difficulty
