import ChunkLedger.Block.Basic
import Std.Data.ExtHashMap

/-!
# Chains

A chain is a first block and the blocks after it, with two indices: where the newest block with a
given digest stands, and where the newest block with a given Merkle root stands.  Appending a block
brings both up to date; nothing is ever removed.  Whether the blocks fit together is another
question (`Chain.Check`).
-/

namespace ChunkLedger

/-- where the newest block with a key stands -/
abbrev Index := Std.ExtHashMap Bytes Nat

structure Chain where
  genesis : Block
  later : List Block
  byHash : Index
  byRoot : Index
deriving DecidableEq

namespace Chain

def blocks (c : Chain) : List Block := c.genesis :: c.later

def length (c : Chain) : Nat := c.later.length + 1

def tip (c : Chain) : Block := c.later.getLast?.getD c.genesis

def single (b : Block) : Chain where
  genesis := b
  later := []
  byHash := (∅ : Index).insert b.hash.bytes 0
  byRoot := (∅ : Index).insert b.merkleRoot.bytes 0

/-- the chain with `b` after its tip, unchecked -/
def append (c : Chain) (b : Block) : Chain where
  genesis := c.genesis
  later := c.later ++ [b]
  byHash := c.byHash.insert b.hash.bytes c.length
  byRoot := c.byRoot.insert b.merkleRoot.bytes c.length

/-- the chain of these blocks in this order, unchecked; there is none without a block -/
def ofBlocks? : List Block → Option Chain
  | [] => none
  | b :: bs => some (bs.foldl append (single b))

def initial : Chain := single Block.genesis

/-- the newest block with the digest `key` -/
def findHash? (c : Chain) (key : Bytes) : Option Block := do
  let i ← c.byHash[key]?
  c.blocks[i]?

def findRoot? (c : Chain) (key : Bytes) : Option Block := do
  let i ← c.byRoot[key]?
  c.blocks[i]?

/-- A block to go after the tip, made at the time `now` and not mined yet.  The index stays at the
largest number of 64 bits once it is there. -/
def successor (c : Chain) (root : Digest) (now : Instant) : Block :=
  Block.rehash ⟨if c.tip.index.toNat + 1 < UInt64.size then c.tip.index + 1 else c.tip.index,
    now, root, some c.tip.hash, .zero, 0⟩

@[simp] theorem blocks_single (b : Block) : (single b).blocks = [b] := rfl

@[simp] theorem blocks_append (c : Chain) (b : Block) : (c.append b).blocks = c.blocks ++ [b] := rfl

theorem length_blocks (c : Chain) : c.blocks.length = c.length := rfl

@[simp] theorem tip_single (b : Block) : (single b).tip = b := rfl

theorem getLast?_blocks (c : Chain) : c.blocks.getLast? = some c.tip := by
  rw [blocks, List.getLast?_cons, tip]

theorem getElem?_tip (c : Chain) : c.blocks[c.length - 1]? = some c.tip := by
  rw [← getLast?_blocks, List.getLast?_eq_getElem?, length_blocks]

@[simp] theorem tip_append (c : Chain) (b : Block) : (c.append b).tip = b := by
  simp [tip, append]

theorem ofBlocks?_singleton (b : Block) : ofBlocks? [b] = some (single b) := rfl

theorem ofBlocks?_concat {bs : List Block} {c : Chain} (h : ofBlocks? bs = some c) (b : Block) :
    ofBlocks? (bs ++ [b]) = some (c.append b) := by
  cases bs with
  | nil => cases h
  | cons a bs =>
    simp only [ofBlocks?, Option.some.injEq, List.cons_append, List.foldl_append] at h ⊢
    rw [h]
    rfl

end Chain

end ChunkLedger
