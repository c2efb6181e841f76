import ChunkLedger.Chunk
import ChunkLedger.Hash.Digest

/-!
# Constants

The numbers and names that a node uses unless it is told otherwise, and the bounds that the command
line sets.
-/

namespace ChunkLedger.Defaults

/-- the name under which peers speak to each other -/
def protocolId : String := "blockchain-storage"

def protocolVersion : String := "0.1.0"

/-- mebibytes per chunk -/
def chunkSizeMb : Nat := 64

/-- leading zero bits of a block's digest -/
def difficulty : Nat := 16

def maxDifficulty : Nat := digestBits

def workers : Nat := 4

def maxWorkers : Nat := 12

/-- attempts at mining a block -/
def retries : Nat := 3

def maxRetries : Nat := 5

/-- where the chain is kept, from the current folder -/
def chainPath : String := "storage/blockchain.json"

theorem workers_le : 1 ≤ workers ∧ workers ≤ maxWorkers := by decide

theorem retries_le : 1 ≤ retries ∧ retries ≤ maxRetries := by decide

theorem difficulty_le : difficulty ≤ maxDifficulty := by decide

end ChunkLedger.Defaults
