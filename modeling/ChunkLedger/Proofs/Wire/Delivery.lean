import ChunkLedger.Proofs.Merkle.Reached
import ChunkLedger.Wire.Package

/-!
# What a verified package delivers

A package names a chunk by its number, but its check looks at the data and the proof only.  So
whoever makes up a package can call the data any chunk he likes, and the data need not be a chunk at
all: with a shorter proof two digests of the tree pass for data, and with a longer one whatever a
chunk holds the digest of (`verify_untruthful`).

What the check does bind is the data to the place where the turns of the proof lead
(`delivered_of_verify`).  A receiver who also compares the length of the proof with the depth, its
sides with the bits of the number, and the number with the count of chunks, has the chunk that the
package names.
-/

namespace ChunkLedger.Wire.Package

open Merkle

/-- the data is the chunk that the package names -/
def Truthful (p : Package) (chunks : List Bytes) : Prop :=
  p.index.toNat < chunks.length ∧ chunks[p.index.toNat]? = some p.data

instance (p : Package) (chunks : List Bytes) : Decidable (p.Truthful chunks) :=
  inferInstanceAs (Decidable (_ ∧ _))

/-- what is hashed when a tree is built over some chunks and a package is checked -/
def preimages (t : Tree) (chunks : List Bytes) (p : Package) : List Bytes :=
  t.preimages chunks ++ verifyPreimages p.data p.proof

/-- **What a verified package delivers.**  The number in the package has no part in the check: with
any other number the package passes as well.  If the proof has a step for each level of the tree,
the data is the chunk at the leaf where its turns lead; this is the chunk with the number in the
package if there is a chunk with this number and the sides are its bits.  A shorter proof passes two
neighbouring digests of the tree for data.  A longer one goes through a chunk that is itself made of
two digests, and its data is somewhere below one of them. -/
theorem delivered_of_verify {chunks : List Bytes} {t : Tree} (ht : Tree.ofChunks chunks = .ok t)
    {p : Package} (hroot : p.merkleRoot = t.root) (hv : p.verify = true)
    (nc : NoCollision (p.preimages t chunks)) :
    (∀ i, ({ p with index := i } : Package).verify = true) ∧
    (p.proof.length = t.depth → chunks[t.reached p.proof.turns]? = some p.data) ∧
    (p.proof.length = t.depth → p.index.toNat < chunks.length →
      (∀ (k : Nat) (s : Step), p.proof[k]? = some s → s.isLeft = p.index.toNat.testBit k) →
      p.Truthful chunks) ∧
    (p.proof.length < t.depth → ∃ a b,
      t.node? (t.depth - p.proof.length - 1) (t.reached (false :: p.proof.turns)) = some a ∧
      t.node? (t.depth - p.proof.length - 1) (t.reached (true :: p.proof.turns)) = some b ∧
      p.data = a.bytes ++ b.bytes) ∧
    (t.depth < p.proof.length → ∃ (below : Proof) (s : Step) (above : Proof),
      p.proof = below ++ s :: above ∧ above.length = t.depth ∧
      chunks[t.reached above.turns]? = some (s.preimage (climb (sha256 p.data) below)) ∧
      (s.preimage (climb (sha256 p.data) below)).length = 64) := by
  have hverify : Merkle.verify p.data t.root p.proof = true := by
    rw [← hroot]
    exact hv
  refine ⟨fun _ => hv, chunk_of_verify ht hverify nc, ?_, halves_of_verify hverify nc, ?_⟩
  · intro hlen hlt hsides
    refine ⟨hlt, ?_⟩
    have hleaf : p.index.toNat < t.leafCount := by
      rw [Tree.leafCount, Tree.leaves_of_ofChunks ht, List.length_map]
      exact hlt
    have hreached := Tree.reached_of_bits hleaf (by rw [Proof.length_turns, hlen])
      (Proof.turns_of_bits hsides)
    rw [← hreached]
    exact chunk_of_verify ht hverify nc hlen
  · intro hlen
    -- the last `depth` steps are those in the tree; the step before them makes the chunk
    have hk : p.proof.length - t.depth - 1 < p.proof.length := by omega
    have habove : (p.proof.drop (p.proof.length - t.depth - 1 + 1)).length = t.depth := by
      rw [List.length_drop]
      omega
    have hparts : p.proof = p.proof.take (p.proof.length - t.depth - 1) ++
        p.proof[p.proof.length - t.depth - 1] ::
          p.proof.drop (p.proof.length - t.depth - 1 + 1) := by
      rw [← List.drop_eq_getElem_cons hk, List.take_append_drop]
    exact ⟨_, _, _, hparts, habove, joined_chunk_of_verify ht hverify nc hparts habove,
      Step.length_preimage _ _⟩

/-- the second of three chunks, called the eighth -/
def misplaced : Package :=
  ⟨threeLeaves.root, 7, [2], [⟨sha256 [1], true⟩, ⟨(sha256 [3]).pair (sha256 [3]), false⟩]⟩

theorem misplaced_passes :
    misplaced.verify = true ∧ NoCollision (misplaced.preimages threeLeaves threeChunks) :=
  ⟨by decide +kernel, by decide +kernel⟩

theorem delivered_of_verify_misplaced :
    Tree.ofChunks threeChunks = .ok threeLeaves ∧ misplaced.merkleRoot = threeLeaves.root ∧
      misplaced.verify = true ∧ NoCollision (misplaced.preimages threeLeaves threeChunks) ∧
      threeChunks[threeLeaves.reached (Proof.turns misplaced.proof)]? = some [2] ∧
      ({ misplaced with index := 1 } : Package).Truthful threeChunks := by
  have ht : Tree.ofChunks threeChunks = .ok threeLeaves := rfl
  obtain ⟨hv, nc⟩ := misplaced_passes
  have hdepth : threeLeaves.depth = 2 := by decide +kernel
  obtain ⟨hany, hchunk, -⟩ := delivered_of_verify ht rfl hv nc
  have hfull := (delivered_of_verify (p := { misplaced with index := 1 }) ht rfl (hany 1) nc).2.2.1
  refine ⟨ht, rfl, hv, nc, hchunk hdepth.symm, hfull hdepth.symm (by decide) ?_⟩
  intro k s hs
  match k, hs with
  | 0, hs => cases hs; rfl
  | 1, hs => cases hs; rfl

/-- the digests of the first two chunks, passed for data -/
def joinedDigests : Package :=
  ⟨threeLeaves.root, 0, (sha256 [1]).bytes ++ (sha256 [2]).bytes,
    [⟨(sha256 [3]).pair (sha256 [3]), false⟩]⟩

/-- a single chunk, made of two digests -/
def digestChunk : List Bytes := [(sha256 [1]).bytes ++ (sha256 [2]).bytes]

def digestLeaf : Tree := ⟨digestChunk.map sha256, by simp [digestChunk], _, rfl⟩

/-- what the first of the two digests stands for, passed for the chunk -/
def belowChunk : Package := ⟨digestLeaf.root, 0, [1], [⟨sha256 [2], false⟩]⟩

/-- **A verified package need not be truthful**: there may be no chunk with its number, and there may
be one but with other data, although no two byte strings that are hashed have the same digest. -/
theorem verify_untruthful :
    (Tree.ofChunks threeChunks = .ok threeLeaves ∧ Tree.ofChunks digestChunk = .ok digestLeaf) ∧
    (misplaced.merkleRoot = threeLeaves.root ∧ misplaced.verify = true ∧
      NoCollision (misplaced.preimages threeLeaves threeChunks) ∧
      ¬ misplaced.index.toNat < threeChunks.length) ∧
    (joinedDigests.merkleRoot = threeLeaves.root ∧ joinedDigests.verify = true ∧
      NoCollision (joinedDigests.preimages threeLeaves threeChunks) ∧
      ¬ joinedDigests.Truthful threeChunks ∧ joinedDigests.data ∉ threeChunks) ∧
    (belowChunk.merkleRoot = digestLeaf.root ∧ belowChunk.verify = true ∧
      NoCollision (belowChunk.preimages digestLeaf digestChunk) ∧
      ¬ belowChunk.Truthful digestChunk ∧ belowChunk.data ∉ digestChunk) := by
  obtain ⟨hv, nc⟩ := misplaced_passes
  refine ⟨⟨rfl, rfl⟩, ⟨rfl, hv, nc, by decide⟩, ⟨rfl, ?_, ?_, ?_, ?_⟩, ⟨rfl, ?_, ?_, ?_, ?_⟩⟩
  all_goals decide +kernel

end ChunkLedger.Wire.Package
