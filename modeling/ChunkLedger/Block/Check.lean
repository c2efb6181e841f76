import ChunkLedger.Block.Basic

/-!
# Checking blocks

A block is checked against the block before it: the stored digest is that of the fields, the parent
is the block before, the index is one more, and the digest meets the difficulty.  The first of these
that fails is reported.  The first block of a chain has index 0, no parent and the right digest.
-/

namespace ChunkLedger.Block

inductive Fault where
  | hashMismatch (index : UInt64) (stored computed : Digest)
  /-- the parent is not the block before, whose digest is `expected` -/
  | prevHashMismatch (index : UInt64) (expected : Digest)
  | nonSequentialIndex (prev got : UInt64)
  | insufficientWork (index : UInt64) (difficulty : Nat)
  | genesisIndex (index : UInt64)
  | genesisParent
deriving DecidableEq

def Fault.message : Fault → String
  | .hashMismatch i stored computed =>
    "block " ++ toString i.toNat ++ " hash mismatch: stored=" ++ stored.toHex ++
      ", computed=" ++ computed.toHex
  | .prevHashMismatch i expected =>
    "block " ++ toString i.toNat ++ " does not link to previous block " ++ expected.toHex
  | .nonSequentialIndex prev got =>
    "block index " ++ toString got.toNat ++ " does not follow previous index " ++
      toString prev.toNat
  | .insufficientWork i difficulty =>
    "block " ++ toString i.toNat ++ " hash does not meet difficulty " ++ toString difficulty
  | .genesisIndex i => "invalid genesis block: index must be 0, got " ++ toString i.toNat
  | .genesisParent => "invalid genesis block: genesis must not reference a previous block"

/-- the index after `i`, if there is one -/
def nextIndex? (i : UInt64) : Option UInt64 :=
  if i.toNat + 1 < UInt64.size then some (i + 1) else none

def validate (b prev : Block) (difficulty : Nat) : Except Fault Unit :=
  if b.hash ≠ b.computedHash then .error (.hashMismatch b.index b.hash b.computedHash)
  else if b.prevHash ≠ some prev.hash then .error (.prevHashMismatch b.index prev.hash)
  else if nextIndex? prev.index ≠ some b.index then
    .error (.nonSequentialIndex prev.index b.index)
  else if b.meetsDifficulty difficulty = false then
    .error (.insufficientWork b.index difficulty)
  else .ok ()

def isValid (b prev : Block) (difficulty : Nat) : Bool := (b.validate prev difficulty).isOk

def verifyGenesis (b : Block) : Except Fault Unit :=
  if b.index ≠ 0 then .error (.genesisIndex b.index)
  else if b.prevHash ≠ none then .error .genesisParent
  else if b.hash ≠ b.computedHash then .error (.hashMismatch 0 b.hash b.computedHash)
  else .ok ()

/-- the stored digest is that of the fields, and it meets the difficulty -/
def Sealed (b : Block) (difficulty : Nat) : Prop :=
  b.hash = b.computedHash ∧ b.meetsDifficulty difficulty = true

instance (b : Block) (difficulty : Nat) : Decidable (b.Sealed difficulty) :=
  inferInstanceAs (Decidable (_ ∧ _))

theorem nextIndex?_eq_some_iff {i j : UInt64} :
    nextIndex? i = some j ↔ i.toNat + 1 = j.toNat := by
  have hj := j.toNat_lt
  unfold nextIndex?
  split
  · rename_i h
    have e : (i + 1).toNat = i.toNat + 1 := by
      rw [UInt64.toNat_add]
      exact Nat.mod_eq_of_lt h
    rw [Option.some.injEq, ← UInt64.toNat_inj, e]
  · rename_i h
    constructor
    · intro h'; cases h'
    · intro h'
      have : UInt64.size = 2 ^ 64 := rfl
      omega

/-- only the last index has none after it -/
theorem nextIndex?_eq_none_iff {i : UInt64} :
    nextIndex? i = none ↔ i.toNat + 1 = UInt64.size := by
  have hi := i.toNat_lt
  have hsize : UInt64.size = 2 ^ 64 := rfl
  unfold nextIndex?
  split
  · simp; omega
  · simp; omega

theorem validate_eq_ok_iff {b prev : Block} {difficulty : Nat} :
    b.validate prev difficulty = .ok () ↔
      b.hash = b.computedHash ∧ b.prevHash = some prev.hash ∧
        nextIndex? prev.index = some b.index ∧ b.meetsDifficulty difficulty = true := by
  unfold validate
  by_cases h1 : b.hash = b.computedHash
  · by_cases h2 : b.prevHash = some prev.hash
    · by_cases h3 : nextIndex? prev.index = some b.index
      · cases h4 : b.meetsDifficulty difficulty <;> simp [h2, h3, ← h1]
      · simp [h2, h3, ← h1]
    · simp [h2, ← h1]
  · simp [h1]

/-- what is accepted at a difficulty is accepted at every lower one -/
theorem validate_of_le {b prev : Block} {d e : Nat} (hde : d ≤ e)
    (h : b.validate prev e = .ok ()) : b.validate prev d = .ok () := by
  obtain ⟨hhash, hprev, hnext, hwork⟩ := validate_eq_ok_iff.mp h
  exact validate_eq_ok_iff.mpr ⟨hhash, hprev, hnext, Difficulty.meets_of_le hde hwork⟩

theorem verifyGenesis_eq_ok_iff {b : Block} :
    b.verifyGenesis = .ok () ↔ b.index = 0 ∧ b.prevHash = none ∧ b.hash = b.computedHash := by
  unfold verifyGenesis
  by_cases h1 : b.index = 0
  · by_cases h2 : b.prevHash = none
    · by_cases h3 : b.hash = b.computedHash
      · simp [h1, h2, ← h3]
      · simp [h1, h2, h3]
    · simp [h1, h2]
  · simp [h1]

end ChunkLedger.Block
