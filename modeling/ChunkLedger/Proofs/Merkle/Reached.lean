import ChunkLedger.Proofs.Merkle.Soundness
import Mathlib.Algebra.Group.Nat.Defs

/-!
# Where accepted data stands

The turns of a proof lead from the root to a place, and that place is all an accepted proof tells of
where its data stands.

* `Tree.reached_of_bits`    with the bits of a leaf's number as its turns one gets to this leaf;
* `joined_chunk_of_verify`  a proof longer than the depth goes on below a leaf: the chunk there is
                            itself made of two digests, and the proof has started below one of
                            them.
-/

namespace ChunkLedger.Merkle

/-! ## ways down to a leaf -/

namespace Tree

/-- above every leaf there is a node in each level -/
theorem lt_length_level {t : Tree} {i k : Nat} (hi : i < t.leafCount) (hk : k ≤ t.depth) :
    i / 2 ^ k < (t.level k).length := by
  induction k with
  | zero =>
    rw [Nat.pow_zero, Nat.div_one, t.level_zero]
    exact hi
  | succ k ih =>
    have hlt := ih (Nat.le_of_succ_le hk)
    rw [t.level_succ hk, length_pairUp, Nat.pow_succ, ← Nat.div_div_eq_div_mul]
    omega

/-- with the bits of `i` as turns one passes the nodes above leaf `i` -/
theorem reached_drop {t : Tree} {i : Nat} (hi : i < t.leafCount) {turns : List Bool}
    (hlen : turns.length = t.depth)
    (hbits : ∀ (k : Nat) (right : Bool), turns[k]? = some right → right = i.testBit k)
    {k above : Nat} (hk : k + above = t.depth) : t.reached (turns.drop k) = i / 2 ^ k := by
  induction above generalizing k with
  | zero =>
    have hlast : k = t.depth := hk
    have hlt := lt_length_level hi (Nat.le_of_eq hlast)
    have hroot : (t.level k).length = 1 := by
      rw [hlast, t.level_depth]
      rfl
    rw [hroot] at hlt
    rw [List.drop_eq_nil_of_le (by omega), Nat.lt_one_iff.mp hlt]
    rfl
  | succ above ih =>
    have hlt : k < turns.length := by omega
    have hbit := hbits k turns[k] (List.getElem?_eq_getElem hlt)
    have hup := ih (k := k + 1) (by omega)
    have hnode := lt_length_level hi (k := k) (by omega)
    have hlevel : t.depth - ((turns.drop (k + 1)).length + 1) = k := by
      rw [List.length_drop]
      omega
    have hhalf : i / 2 ^ (k + 1) = i / 2 ^ k / 2 := by
      rw [Nat.pow_succ, Nat.div_div_eq_div_mul]
    rw [List.drop_eq_getElem_cons hlt, reached_cons, hlevel, hup, hbit, childIndex, hhalf,
      Nat.toNat_testBit]
    omega

/-- **The bits of a leaf's number lead to the leaf.** -/
theorem reached_of_bits {t : Tree} {i : Nat} (hi : i < t.leafCount) {turns : List Bool}
    (hlen : turns.length = t.depth)
    (hbits : ∀ (k : Nat) (right : Bool), turns[k]? = some right → right = i.testBit k) :
    t.reached turns = i := by
  have h := reached_drop hi hlen hbits (k := 0) (Nat.zero_add _)
  rwa [List.drop_zero, Nat.pow_zero, Nat.div_one] at h

end Tree

/-- the turns of a proof whose sides are the bits of a number -/
theorem Proof.turns_of_bits {p : Proof} {i : Nat}
    (h : ∀ (k : Nat) (s : Step), p[k]? = some s → s.isLeft = i.testBit k) (k : Nat) (right : Bool)
    (hk : p.turns[k]? = some right) : right = i.testBit k := by
  rw [turns, List.getElem?_map] at hk
  obtain ⟨s, hs, rfl⟩ := Option.map_eq_some_iff.mp hk
  exact h k s hs

/-! ## what is hashed along a proof -/

theorem Step.length_preimage (acc : Digest) (s : Step) : (s.preimage acc).length = 64 := by
  unfold preimage
  split <;> rw [List.length_append, s.hash.length_bytes, acc.length_bytes] <;> rfl

theorem climbPreimages_append (d : Digest) (p q : Proof) :
    climbPreimages d (p ++ q) = climbPreimages d p ++ climbPreimages (climb d p) q := by
  induction p generalizing d with
  | nil => rfl
  | cons s p ih => rw [List.cons_append, climbPreimages, climbPreimages, ih]; rfl

/-! ## proofs longer than the depth -/

theorem joined_chunk_of_verify {chunks : List Bytes} {t : Tree} (ht : Tree.ofChunks chunks = .ok t)
    {data : Bytes} {p : Proof} (hv : verify data t.root p = true)
    (nc : NoCollision (t.preimages chunks ++ verifyPreimages data p))
    {below : Proof} {s : Step} {above : Proof} (hp : p = below ++ s :: above)
    (habove : above.length = t.depth) :
    chunks[t.reached above.turns]? = some (s.preimage (climb (sha256 data) below)) := by
  -- the fold over the upper part starts from what the lower part and `s` have come to
  have hroot : climb (s.fold (climb (sha256 data) below)) above = t.root := by
    rw [← climb_cons, ← climb_append, ← hp]
    exact verify_eq_true_iff.mp hv
  have hhashed : climbPreimages (climb (sha256 data) below) (s :: above)
      ⊆ t.preimages chunks ++ verifyPreimages data p := by
    intro x hx
    apply List.mem_append_right
    apply List.mem_cons_of_mem
    rw [hp, climbPreimages_append]
    exact List.mem_append_right _ hx
  obtain ⟨hs, hclimb⟩ := List.cons_subset.mp hhashed
  obtain ⟨hnode, -⟩ := path_of_climb nc (List.subset_append_left _ _) above _
    (Nat.le_of_eq habove) hclimb hroot
  rw [habove, Nat.sub_self, Step.fold_eq] at hnode
  exact chunk_of_leaf ht nc (List.subset_append_left _ _) hs hnode

end ChunkLedger.Merkle
