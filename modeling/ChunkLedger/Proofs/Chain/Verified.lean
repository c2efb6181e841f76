import ChunkLedger.Chain.Check
import Mathlib.Data.List.Chain

/-!
# What verification says

Verification looks at the first block and then at each block beside the one before it
(`verify_eq_ok_iff`).  For a verified chain this gives, position by position:

* `hash_eq_of_verify`    every stored digest is that of the block's fields;
* `index_of_verify`      the block at position `i` has the index `i`;
* `parent_of_verify`     every later block names the block before it as its parent.

So a verified chain has no broken link (`checkLinks_of_verify`).  A chain that has grown by a block
verifies if it did before and the block belongs after its tip (`verify_append_iff`).
-/

namespace ChunkLedger.Chain

/-- `b` may stand right after `p` -/
def Follows (d : Nat) (p b : Block) : Prop := b.validate p d = .ok ()

theorem verifyAfter_eq_ok_iff {d : Nat} {prev : Block} {bs : List Block} :
    verifyAfter d prev bs = .ok () ↔ (prev :: bs).IsChain (Follows d) := by
  induction bs generalizing prev with
  | nil => simp [verifyAfter]
  | cons b bs ih =>
    rw [List.isChain_cons_cons, ← ih, verifyAfter, Follows]
    cases b.validate prev d with
    | ok u => simp
    | error f => simp

theorem verify_eq_ok_iff {c : Chain} {d : Nat} :
    c.verify d = .ok () ↔ c.genesis.verifyGenesis = .ok () ∧ c.blocks.IsChain (Follows d) := by
  unfold verify
  cases c.genesis.verifyGenesis with
  | error f => simp [ofBlock]
  | ok u =>
    show ofBlock (verifyAfter d c.genesis c.later) = .ok () ↔ _
    rw [blocks, ← verifyAfter_eq_ok_iff]
    cases verifyAfter d c.genesis c.later with
    | ok u => simp [ofBlock]
    | error f => simp [ofBlock]

/-- the chain of a first block verifies at every difficulty -/
theorem verify_single {g : Block} (h : g.verifyGenesis = .ok ()) (d : Nat) :
    (single g).verify d = .ok () :=
  verify_eq_ok_iff.mpr ⟨h, .singleton g⟩

theorem verify_append_iff {c : Chain} {b : Block} {d : Nat} :
    (c.append b).verify d = .ok () ↔ c.verify d = .ok () ∧ b.validate c.tip d = .ok () := by
  rw [verify_eq_ok_iff, verify_eq_ok_iff, blocks_append, List.isChain_append, getLast?_blocks,
    and_assoc]
  simp [Follows, append]

theorem firstBreak_eq_none_iff {prev : Block} {bs : List Block} :
    firstBreak prev bs = none ↔ (prev :: bs).IsChain fun p b => linked p b = true := by
  induction bs generalizing prev with
  | nil => simp [firstBreak]
  | cons b bs ih =>
    rw [List.isChain_cons_cons, ← ih, firstBreak]
    cases linked prev b <;> simp

theorem checkLinks_eq_ok_iff {c : Chain} :
    c.checkLinks = .ok () ↔ c.blocks.IsChain fun p b => linked p b = true := by
  rw [blocks, ← firstBreak_eq_none_iff, checkLinks]
  cases firstBreak c.genesis c.later with
  | none => simp
  | some p => simp

theorem Follows.linked {d : Nat} {p b : Block} (h : Follows d p b) : linked p b = true := by
  obtain ⟨-, hprev, hnext, -⟩ := Block.validate_eq_ok_iff.mp h
  exact linked_iff.mpr ⟨hprev, hnext⟩

section
variable {c : Chain} {d : Nat} (hv : c.verify d = .ok ())
include hv

theorem checkLinks_of_verify : c.checkLinks = .ok () :=
  checkLinks_eq_ok_iff.mpr ((verify_eq_ok_iff.mp hv).2.imp fun _ _ => Follows.linked)

/-- two adjacent blocks of a verified chain -/
theorem follows_of_verify {i : Nat} {p b : Block} (hp : c.blocks[i]? = some p)
    (hb : c.blocks[i + 1]? = some b) : Follows d p b := by
  obtain ⟨hi, rfl⟩ := List.getElem?_eq_some_iff.mp hb
  rw [List.getElem?_eq_getElem (by omega)] at hp
  cases hp
  exact (verify_eq_ok_iff.mp hv).2.getElem i hi

theorem hash_eq_of_verify {b : Block} (hb : b ∈ c.blocks) : b.hash = b.computedHash := by
  obtain ⟨i, hi⟩ := List.mem_iff_getElem?.mp hb
  cases i with
  | zero =>
    cases hi
    exact (Block.verifyGenesis_eq_ok_iff.mp (verify_eq_ok_iff.mp hv).1).2.2
  | succ i =>
    have hlt : i < c.blocks.length := by
      have := (List.getElem?_eq_some_iff.mp hi).1
      omega
    have h := follows_of_verify hv (List.getElem?_eq_getElem hlt) hi
    exact (Block.validate_eq_ok_iff.mp h).1

/-- a later block names the one before it, and its index is one more -/
theorem parent_of_verify {i : Nat} {b : Block} (hb : c.blocks[i + 1]? = some b) :
    ∃ p, c.blocks[i]? = some p ∧ b.prevHash = some p.hash ∧
      p.index.toNat + 1 = b.index.toNat := by
  have hlt : i < c.blocks.length := by
    have := (List.getElem?_eq_some_iff.mp hb).1
    omega
  have hp := List.getElem?_eq_getElem hlt
  obtain ⟨-, hprev, hnext, -⟩ := Block.validate_eq_ok_iff.mp (follows_of_verify hv hp hb)
  exact ⟨_, hp, hprev, Block.nextIndex?_eq_some_iff.mp hnext⟩

/-- a block's index is its position -/
theorem index_of_verify {i : Nat} {b : Block} (hb : c.blocks[i]? = some b) :
    b.index.toNat = i := by
  induction i generalizing b with
  | zero =>
    cases hb
    rw [(Block.verifyGenesis_eq_ok_iff.mp (verify_eq_ok_iff.mp hv).1).1]
    rfl
  | succ i ih =>
    obtain ⟨p, hp, -, hnext⟩ := parent_of_verify hv hb
    rw [← hnext, ih hp]

end

end ChunkLedger.Chain
