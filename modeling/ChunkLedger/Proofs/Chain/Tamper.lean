import ChunkLedger.Proofs.Block.Preimage
import ChunkLedger.Proofs.Chain.Built
import ChunkLedger.Proofs.Chain.Verified
import ChunkLedger.Proofs.Hash.Collision

/-!
# A digest stands for the whole history

Two verified chains that have a block digest in common have it at the same position and agree up to
there (`history_of_hash_eq`).  The digest of a block covers its fields, one of which is the digest
of the block before, so agreement is handed down from a block to its parent.

All this is under the condition that the hash function tells apart what is hashed while the two
chains are verified: the preimages of their blocks.
-/

namespace ChunkLedger.Chain

/-- the byte strings hashed when the chain is verified -/
def preimages (c : Chain) : List Bytes := c.blocks.map fun b => b.preimage b.nonce

section
variable {a b : Chain} {d e : Nat} (va : a.verify d = .ok ()) (vb : b.verify e = .ok ())
  (nc : NoCollision (a.preimages ++ b.preimages))
include va vb nc

theorem block_of_hash_eq {x y : Block} (hx : x ∈ a.blocks) (hy : y ∈ b.blocks)
    (h : x.hash = y.hash) : x = y := by
  have hp : x.preimage x.nonce = y.preimage y.nonce := by
    apply nc
    · exact List.mem_append_left _ (List.mem_map_of_mem hx)
    · exact List.mem_append_right _ (List.mem_map_of_mem hy)
    · have e := h
      rw [hash_eq_of_verify va hx, hash_eq_of_verify vb hy] at e
      exact e
  exact Block.eq_of_preimage_eq hp h

theorem position_of_hash_eq {i j : Nat} {x y : Block} (hx : a.blocks[i]? = some x)
    (hy : b.blocks[j]? = some y) (h : x.hash = y.hash) : i = j := by
  have e := block_of_hash_eq va vb nc (List.mem_of_getElem? hx) (List.mem_of_getElem? hy) h
  rw [← index_of_verify va hx, ← index_of_verify vb hy, e]

theorem take_of_hash_eq {i : Nat} {x y : Block} (hx : a.blocks[i]? = some x)
    (hy : b.blocks[i]? = some y) (h : x.hash = y.hash) :
    a.blocks.take (i + 1) = b.blocks.take (i + 1) := by
  induction i generalizing x y with
  | zero =>
    have e := block_of_hash_eq va vb nc (List.mem_of_getElem? hx) (List.mem_of_getElem? hy) h
    rw [List.take_add_one, List.take_add_one, hx, hy, e, List.take_zero, List.take_zero]
  | succ i ih =>
    have e := block_of_hash_eq va vb nc (List.mem_of_getElem? hx) (List.mem_of_getElem? hy) h
    -- the same block names one parent, which both chains have at position `i`
    obtain ⟨p, hp, hpx, -⟩ := parent_of_verify va hx
    obtain ⟨q, hq, hqy, -⟩ := parent_of_verify vb hy
    rw [e, hqy] at hpx
    have hpq : p.hash = q.hash := (Option.some.inj hpx).symm
    rw [List.take_add_one (i := i + 1), List.take_add_one (i := i + 1), hx, hy,
      ih hp hq hpq, e]

end

/-- no two blocks of a verified chain have the same digest -/
theorem nodup_hashes {c : Chain} {d : Nat} (hv : c.verify d = .ok ())
    (nc : NoCollision c.preimages) : (c.blocks.map Block.hash).Nodup := by
  have nc' : NoCollision (c.preimages ++ c.preimages) :=
    nc.mono (List.append_subset.mpr ⟨List.Subset.refl _, List.Subset.refl _⟩)
  refine List.pairwise_iff_getElem.mpr fun i j hi hj hij he => ?_
  rw [List.length_map] at hi hj
  rw [List.getElem_map, List.getElem_map] at he
  have := position_of_hash_eq hv hv nc' (List.getElem?_eq_getElem hi)
    (List.getElem?_eq_getElem hj) he
  omega

/-- **A digest stands for the whole history.**  Verified chains agree up to a block whose digest
both have, and have it at the same position; with the same tip digest they are the same chain; and
no digest occurs twice in one of them. -/
theorem history_of_hash_eq {a b : Chain} (ha : a.Built) (hb : b.Built) {d e : Nat}
    (va : a.verify d = .ok ()) (vb : b.verify e = .ok ())
    (nc : NoCollision (a.preimages ++ b.preimages)) :
    (∀ (i j : Nat) (x y : Block), a.blocks[i]? = some x → b.blocks[j]? = some y →
      x.hash = y.hash → i = j ∧ a.blocks.take (i + 1) = b.blocks.take (i + 1)) ∧
    (a.tip.hash = b.tip.hash → a = b) ∧
    (a.blocks.map Block.hash).Nodup ∧ (b.blocks.map Block.hash).Nodup := by
  have agree : ∀ (i j : Nat) (x y : Block), a.blocks[i]? = some x → b.blocks[j]? = some y →
      x.hash = y.hash → i = j ∧ a.blocks.take (i + 1) = b.blocks.take (i + 1) := by
    intro i j x y hx hy h
    obtain rfl := position_of_hash_eq va vb nc hx hy h
    exact ⟨rfl, take_of_hash_eq va vb nc hx hy h⟩
  refine ⟨agree, fun h => ?_, nodup_hashes va (nc.mono (List.subset_append_left _ _)),
    nodup_hashes vb (nc.mono (List.subset_append_right _ _))⟩
  obtain ⟨hlen, htake⟩ := agree _ _ _ _ a.getElem?_tip b.getElem?_tip h
  have hl (c : Chain) : c.length - 1 + 1 = c.blocks.length := rfl
  rw [hl a, List.take_length, ← hl a, hlen, hl b, List.take_length] at htake
  exact ha.ext hb htake

/-- `c` and a block after its tip, made at the epoch and with the nonce `n` -/
def grown (c : Chain) (root : Digest) (n : UInt64) : Chain :=
  c.append (Block.rehash { c.successor root .epoch with nonce := n })

theorem Built.grown {c : Chain} (h : c.Built) (root : Digest) (n : UInt64) :
    (c.grown root n).Built :=
  h.append _

/-- two chains that part after their second block -/
def leftFork : Chain := (initial.grown .zero 89).grown .zero 8

def rightFork : Chain := (initial.grown .zero 89).grown Block.genesis.merkleRoot 7

theorem history_of_forks :
    leftFork.Built ∧ rightFork.Built ∧ leftFork.verify 4 = .ok () ∧ rightFork.verify 3 = .ok () ∧
      NoCollision (leftFork.preimages ++ rightFork.preimages) ∧
      leftFork.blocks.take 2 = rightFork.blocks.take 2 ∧
      (leftFork.blocks.map Block.hash).Nodup := by
  have hl : leftFork.Built := (Built.initial.grown _ _).grown _ _
  have hr : rightFork.Built := (Built.initial.grown _ _).grown _ _
  have vl : leftFork.verify 4 = .ok () := by decide +kernel
  have vr : rightFork.verify 3 = .ok () := by decide +kernel
  have nc : NoCollision (leftFork.preimages ++ rightFork.preimages) := by decide +kernel
  have h := history_of_hash_eq hl hr vl vr nc
  exact ⟨hl, hr, vl, vr, nc, (h.1 1 1 _ _ rfl rfl rfl).2, h.2.2.1⟩

end ChunkLedger.Chain
