import ChunkLedger.Difficulty
import ChunkLedger.Hash.Sha256
import ChunkLedger.Time.Instant

/-!
# Blocks

A block records one upload: the Merkle root of the chunks, the digest of the block before it, and a
nonce chosen so that its own digest is small.

The digest is taken over the fields one after the other, numbers with a fixed width and the most
significant byte first: the index (8 bytes), the seconds of the timestamp (8 bytes, two's
complement), its nanoseconds (4), the nonce (8), the Merkle root (32) and the parent's digest (32).
The first block of a chain has no parent and adds nothing for it.
-/

namespace ChunkLedger

structure Block where
  index : UInt64
  timestamp : Instant
  merkleRoot : Digest
  /-- the digest of the block before; none for the first block -/
  prevHash : Option Digest
  hash : Digest
  nonce : UInt64
deriving DecidableEq

namespace Block

/-- the seconds as an unsigned number of 64 bits, in two's complement -/
def secondsWord (t : Instant) : Nat := (t.seconds % UInt64.size).toNat

/-- what the digest is taken over, with the nonce `n` -/
def preimage (b : Block) (n : UInt64) : Bytes :=
  Bytes.bigEndian 8 b.index.toNat ++ Bytes.bigEndian 8 (secondsWord b.timestamp) ++
    Bytes.bigEndian 4 b.timestamp.nanos ++ Bytes.bigEndian 8 n.toNat ++
    b.merkleRoot.bytes ++ (b.prevHash.map Digest.bytes).getD []

def hashWithNonce (b : Block) (n : UInt64) : Digest := sha256 (b.preimage n)

/-- the digest of the fields, whatever the stored one is -/
def computedHash (b : Block) : Digest := b.hashWithNonce b.nonce

def rehash (b : Block) : Block := { b with hash := b.computedHash }

def meetsDifficulty (b : Block) (difficulty : Nat) : Bool := Difficulty.meets b.hash difficulty

/-- what the first block of every chain commits to -/
def genesisMessage : String := "chainstore genesis: every chunk accounted for"

/-- The block that chains start with: index 0, the epoch, no parent, not mined. -/
def genesis : Block :=
  rehash ⟨0, .epoch, sha256 (utf8 genesisMessage), none, .zero, 0⟩

theorem rehash_hash (b : Block) : b.rehash.hash = b.computedHash := rfl

theorem length_preimage (b : Block) (n : UInt64) :
    (b.preimage n).length = if b.prevHash.isSome then 92 else 60 := by
  have hr := b.merkleRoot.length_bytes
  cases h : b.prevHash with
  | none => simp [preimage, h, hr, digestLength]
  | some p => simp [preimage, h, hr, p.length_bytes, digestLength]

end Block

end ChunkLedger
