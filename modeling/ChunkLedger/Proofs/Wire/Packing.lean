import ChunkLedger.Proofs.Merkle.Completeness
import ChunkLedger.Proofs.Merkle.Reached
import ChunkLedger.Wire.Package

/-!
# Packing against any tree

Chunks are packed with proofs of a tree that need not be theirs.  Whether there is a package is a
matter of the number alone: a chunk has to have it, which is looked at first, and a leaf.  The proof
then leads from that leaf to the root.

So a package verifies if its chunk has the leaf for its digest.  If the chunk has another digest,
the fold starts beside the leaf, and cannot come to the same root: with the bits of a leaf's number
as sides, only what is stored at the leaf leads there (`Merkle.leaf_of_climb`).  This does not depend
on where the leaf stands, even if it is the odd last one and meets itself as its sibling.
-/

namespace ChunkLedger

namespace Merkle

/-- **Only the leaf leads to the root** along a proof with the bits of the leaf's number as sides. -/
theorem leaf_of_climb {t : Tree} {i : Nat} (hi : i < t.leafCount) {d : Digest} {p : Proof}
    (hlen : p.length = t.depth)
    (hsides : ∀ (k : Nat) (s : Step), p[k]? = some s → s.isLeft = i.testBit k)
    (nc : NoCollision (t.preimages [] ++ climbPreimages d p)) (h : climb d p = t.root) :
    t.leaves[i]? = some d := by
  obtain ⟨hnode, -⟩ := path_of_climb nc (List.subset_append_left _ _) p d (Nat.le_of_eq hlen)
    (List.subset_append_right _ _) h
  have hreached := Tree.reached_of_bits hi (by rw [Proof.length_turns, hlen])
    (Proof.turns_of_bits hsides)
  rw [hlen, Nat.sub_self, hreached, Tree.node?, t.level_zero] at hnode
  exact hnode

end Merkle

namespace Wire.Package

open Merkle

theorem ofTree_of_chunks_le {t : Tree} {chunks : List Bytes} {i : UInt64}
    (h : chunks.length ≤ i.toNat) : ofTree t chunks i = .error (.missingChunk i.toNat) := by
  rw [ofTree, List.getElem?_eq_none h]

section
variable {t : Tree} {chunks : List Bytes} {i : UInt64} {data : Bytes}
  (hdata : chunks[i.toNat]? = some data)
include hdata

theorem ofTree_of_leaves_le (h : t.leafCount ≤ i.toNat) :
    ofTree t chunks i = .error (.merkle (.leafOutOfRange i.toNat t.leafCount)) := by
  rw [ofTree, hdata]
  simp only [Tree.prove_of_le h]

theorem ofTree_eq_ok {p : Proof} (h : t.prove i.toNat = .ok p) :
    ofTree t chunks i = .ok ⟨t.root, i, data, p⟩ := by
  rw [ofTree, hdata]
  simp only [h]

end

/-- **Packing against any tree.**  Without a chunk of the number there is no package for that
reason, whatever the tree; without a leaf of the number there is none for that one.  Otherwise there
is one, with the root, the number and the bytes of the chunk; it verifies if the digest of the chunk
is the leaf and, as long as the hash tells apart what is hashed for the tree and along the proof,
only then. -/
theorem ofTree_exact (t : Tree) (chunks : List Bytes) (i : UInt64) :
    (chunks.length ≤ i.toNat → ofTree t chunks i = .error (.missingChunk i.toNat)) ∧
    (i.toNat < chunks.length → t.leafCount ≤ i.toNat →
      ofTree t chunks i = .error (.merkle (.leafOutOfRange i.toNat t.leafCount))) ∧
    ∀ data, chunks[i.toNat]? = some data → i.toNat < t.leafCount →
      ∃ p, ofTree t chunks i = .ok p ∧ p.merkleRoot = t.root ∧ p.index = i ∧ p.data = data ∧
        (t.leaves[i.toNat]? = some (sha256 data) → p.verify = true) ∧
        (NoCollision (t.preimages [] ++ climbPreimages (sha256 data) p.proof) → p.verify = true →
          t.leaves[i.toNat]? = some (sha256 data)) := by
  refine ⟨ofTree_of_chunks_le, ?_, ?_⟩
  · intro hchunk hleaf
    exact ofTree_of_leaves_le (List.getElem?_eq_getElem hchunk) hleaf
  · intro data hdata hi
    obtain ⟨p, hp, hlen, hsides, hroot⟩ := Tree.exists_climb (List.getElem?_eq_getElem hi)
    refine ⟨_, ofTree_eq_ok hdata hp, rfl, rfl, rfl, ?_, ?_⟩
    · intro hleaf
      have hdigest : t.leaves[i.toNat] = sha256 data := by
        rw [List.getElem?_eq_getElem hi] at hleaf
        exact Option.some.inj hleaf
      rw [hdigest] at hroot
      exact verify_eq_true_iff.mpr hroot
    · intro nc hv
      exact leaf_of_climb hi hlen hsides nc (verify_eq_true_iff.mp hv)

/-- a tree that has the digest of the first chunk only, and stops before the last -/
def strayLeaves : Tree := ⟨[sha256 [1], .zero, .zero], List.cons_ne_nil _ _, _, rfl⟩

def fourChunks : List Bytes := [[1], [2], [3], [4]]

/-- the package of the third chunk, whose leaf is its own sibling -/
def strayPackage : Package :=
  ⟨strayLeaves.root, 2, [3], [⟨.zero, false⟩, ⟨(sha256 [1]).pair .zero, true⟩]⟩

theorem ofTree_exact_stray :
    (∃ p, ofTree strayLeaves fourChunks 0 = .ok p ∧ p.data = [1] ∧ p.verify = true) ∧
    ofTree strayLeaves fourChunks 2 = .ok strayPackage ∧ strayPackage.verify = false ∧
    ofTree strayLeaves fourChunks 3 = .error (.merkle (.leafOutOfRange 3 3)) ∧
    ofTree strayLeaves fourChunks 4 = .error (.missingChunk 4) := by
  have hfirst := (ofTree_exact strayLeaves fourChunks 0).2.2 [1] rfl (by decide)
  have hthird := (ofTree_exact strayLeaves fourChunks 2).2.2 [3] rfl (by decide)
  have hpacked : ofTree strayLeaves fourChunks 2 = .ok strayPackage :=
    ofTree_eq_ok rfl (Tree.prove_eq_ok (by decide) (by decide +kernel))
  have nc : NoCollision (strayLeaves.preimages [] ++
      climbPreimages (sha256 [3]) strayPackage.proof) := by decide +kernel
  have hother : strayLeaves.leaves[(2 : UInt64).toNat]? ≠ some (sha256 [3]) := by decide +kernel
  refine ⟨?_, hpacked, ?_, ?_, ?_⟩
  · obtain ⟨p, hp, -, -, hdata, hpasses, -⟩ := hfirst
    exact ⟨p, hp, hdata, hpasses rfl⟩
  · obtain ⟨p, hp, -, -, -, -, hleaf⟩ := hthird
    obtain rfl : p = strayPackage := Except.ok.inj (hp.symm.trans hpacked)
    exact Bool.eq_false_iff.mpr fun hv => hother (hleaf nc hv)
  · exact (ofTree_exact strayLeaves fourChunks 3).2.1 (by decide) (by decide)
  · exact (ofTree_exact strayLeaves fourChunks 4).1 (by decide)

end Wire.Package

end ChunkLedger
