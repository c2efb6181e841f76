import ChunkLedger.Proofs.Merkle.Expansion

/-!
# What a root commits to

Two trees with one root have the same digests wherever the same turns lead in both of them
(`Tree.digestAt_eq_of_root_eq`): the root is a pair in both, and pairs have their parts in common.
Going down so one comes to the leaves of the less deep tree, and no further.

* `root_eq_iff_expansion_eq`   for trees of one depth this is all: the expansions agree;
* `root_eq_iff_hashedAt_eq`    over chunks, the same byte strings have been hashed there.

So there are two ways for different chunks to have one root (`root_ambiguous`).  What the rule for
odd levels repeats may be given as chunks once more, and a chunk may be made of two digests, which
stand in the other tree for what is below them.  Chunks of one number are told apart by the root.
-/

namespace ChunkLedger.Merkle

namespace Tree

/-- trees of as many leaves are as deep -/
theorem depth_eq_of_leafCount_eq {s t : Tree} (h : s.leafCount = t.leafCount) :
    s.depth = t.depth := by
  rw [s.depth_eq_clog, t.depth_eq_clog, h]

/-- the turns to a leaf are the bits of its number -/
theorem reached_turnsTo {t : Tree} {i : Nat} (hi : i < t.leafCount) :
    t.reached (turnsTo t.depth i) = i := by
  apply reached_of_bits hi (length_turnsTo t.depth i)
  intro k right hk
  exact getElem?_turnsTo hk

/-- **Under one root the same turns lead to the same digests.** -/
theorem digestAt_eq_of_root_eq {s t : Tree} {cs ds : List Bytes}
    (nc : NoCollision (s.preimages cs ++ t.preimages ds)) (hroot : s.root = t.root)
    {turns : List Bool} (hs : turns.length ≤ s.depth) (ht : turns.length ≤ t.depth) :
    s.digestAt turns = t.digestAt turns := by
  induction turns with
  | nil => rw [digestAt_nil, digestAt_nil, hroot]
  | cons right above ih =>
    rw [List.length_cons] at hs ht
    have hup : s.digestAt above = t.digestAt above := ih (by omega) (by omega)
    obtain ⟨hpair, hmem⟩ := digestAt_eq_pair cs hs
    obtain ⟨hpair', hmem'⟩ := digestAt_eq_pair ds ht
    rw [hpair, hpair'] at hup
    obtain ⟨hleft, hright⟩ :=
      nc.pair_inj (List.mem_append_left _ hmem) (List.mem_append_right _ hmem') hup
    cases right with
    | false => exact hleft
    | true => exact hright

/-- what `n` turns lead to determines the root -/
theorem root_eq_of_spread_eq {s t : Tree} {n : Nat} (hs : n ≤ s.depth) (ht : n ≤ t.depth)
    (h : spread n s.digestAt = spread n t.digestAt) : s.root = t.root := by
  have hroot := s.rootByHalves_spread hs
  rw [h, t.rootByHalves_spread ht] at hroot
  exact (Option.some.inj hroot).symm

theorem depth_eq_of_expansion_eq {s t : Tree} (h : s.expansion = t.expansion) :
    s.depth = t.depth := by
  have hlen := congrArg List.length h
  rw [expansion, expansion, length_spread, length_spread] at hlen
  exact Nat.pow_right_injective (Nat.le_refl 2) hlen

/-! ## lists that agree along all ways down -/

section
variable {α : Type} {s t : Tree} {xs ys : List α} (hdepth : s.depth = t.depth)
  (hys : ys.length = t.leafCount)
  (h : ∀ turns : List Bool, turns.length = s.depth →
    xs[s.reached turns]? = ys[t.reached turns]?)
include hdepth hys h

/-- what stands at a place of the one stands where the way to this place leads in the other -/
theorem getElem?_of_ways {i : Nat} (hi : i < ys.length) :
    ys[i]? = xs[s.reached (turnsTo s.depth i)]? := by
  rw [hys] at hi
  rw [h _ (length_turnsTo s.depth i), hdepth, reached_turnsTo hi]

theorem prefix_of_ways (hxs : xs.length = s.leafCount) (hle : xs.length ≤ ys.length) :
    xs <+: ys := by
  rw [List.prefix_iff_getElem?]
  intro i hi
  rw [getElem?_of_ways hdepth hys h (Nat.lt_of_lt_of_le hi hle), reached_turnsTo (hxs ▸ hi),
    List.getElem?_eq_getElem hi]

end

end Tree

/-! ## digests for leaves -/

/-- **Which digests a root stands for.**  Trees with the same expansion have the same root.  As long
as the pairs that are hashed for two trees are told apart, trees of one depth have the same root
only if they have the same expansion, and with as many leaves only if they have the same leaves. -/
theorem root_eq_iff_expansion_eq {xs ys : List Digest} {s t : Tree}
    (hs : Tree.ofLeaves xs = .ok s) (ht : Tree.ofLeaves ys = .ok t) :
    (s.expansion = t.expansion → s.root = t.root) ∧
    (NoCollision (s.preimages [] ++ t.preimages []) → s.depth = t.depth →
      (s.root = t.root ↔ s.expansion = t.expansion)) ∧
    (NoCollision (s.preimages [] ++ t.preimages []) → xs.length = ys.length →
      (s.root = t.root ↔ xs = ys)) := by
  obtain rfl : s.leaves = xs := Tree.ofLeaves_eq_ok_iff.mp hs
  obtain rfl : t.leaves = ys := Tree.ofLeaves_eq_ok_iff.mp ht
  have hif : s.expansion = t.expansion → s.root = t.root := by
    intro h
    have hdepth := Tree.depth_eq_of_expansion_eq h
    rw [Tree.expansion, Tree.expansion, ← hdepth] at h
    exact Tree.root_eq_of_spread_eq (Nat.le_refl _) (Nat.le_of_eq hdepth) h
  have honly : NoCollision (s.preimages [] ++ t.preimages []) → s.depth = t.depth →
      s.root = t.root → s.expansion = t.expansion := by
    intro nc hdepth hroot
    rw [Tree.expansion, Tree.expansion, ← hdepth, spread_eq_iff]
    intro turns hlen
    exact Tree.digestAt_eq_of_root_eq nc hroot (Nat.le_of_eq hlen)
      (Nat.le_of_eq (hlen.trans hdepth))
  refine ⟨hif, ?_, ?_⟩
  · intro nc hdepth
    exact ⟨honly nc hdepth, hif⟩
  · intro nc hlen
    constructor
    · intro hroot
      have hdepth := Tree.depth_eq_of_leafCount_eq hlen
      refine (Tree.prefix_of_ways hdepth rfl ?_ rfl (Nat.le_of_eq hlen)).eq_of_length hlen
      intro turns hturns
      rw [s.getElem?_leaves hturns, t.getElem?_leaves (hturns.trans hdepth),
        Tree.digestAt_eq_of_root_eq nc hroot (Nat.le_of_eq hturns)
          (Nat.le_of_eq (hturns.trans hdepth))]
    · intro h
      rw [Tree.ext_leaves h]

/-- three chunks and the last of them once more -/
def repeatedChunks : List Bytes := threeChunks ++ [[3]]

def repeatedLeaves : Tree := ⟨repeatedChunks.map sha256, by simp [repeatedChunks], _, rfl⟩

/-- chunks made of the digests of three others -/
def joinedChunks : List Bytes :=
  [(sha256 [1]).bytes ++ (sha256 [2]).bytes, (sha256 [3]).bytes ++ (sha256 [3]).bytes]

def joinedLeaves : Tree := ⟨joinedChunks.map sha256, by simp [joinedChunks], _, rfl⟩

/-- the digests of these chunks the other way round -/
def exchangedLeaves : Tree :=
  ⟨joinedLeaves.leaves.reverse, by simp [joinedLeaves, joinedChunks], _, rfl⟩

theorem root_eq_three :
    threeLeaves.root = repeatedLeaves.root ∧ joinedLeaves.root = threeLeaves.root := by
  decide +kernel

/-- nothing is hashed for the repeated or the joined chunks that is not hashed for the three -/
theorem preimages_subset_three : NoCollision (threeLeaves.preimages threeChunks) ∧
    repeatedLeaves.preimages repeatedChunks ⊆ threeLeaves.preimages threeChunks ∧
    joinedLeaves.preimages joinedChunks ⊆ threeLeaves.preimages threeChunks := by
  decide +kernel

theorem noCollision_repeated :
    NoCollision (threeLeaves.preimages threeChunks ++ repeatedLeaves.preimages repeatedChunks) := by
  obtain ⟨nc, hsub, -⟩ := preimages_subset_three
  exact nc.mono (List.append_subset.mpr ⟨List.Subset.refl _, hsub⟩)

theorem noCollision_joined :
    NoCollision (joinedLeaves.preimages joinedChunks ++ threeLeaves.preimages threeChunks) := by
  obtain ⟨nc, -, hsub⟩ := preimages_subset_three
  exact nc.mono (List.append_subset.mpr ⟨hsub, List.Subset.refl _⟩)

/-- a leaf that is doubled may as well be given twice, but leaves may not be exchanged -/
theorem root_eq_iff_expansion_eq_repeated :
    (threeLeaves.depth = repeatedLeaves.depth ∧
      NoCollision (threeLeaves.preimages [] ++ repeatedLeaves.preimages []) ∧
      threeLeaves.expansion = repeatedLeaves.expansion ∧
      threeLeaves.root = repeatedLeaves.root) ∧
    (joinedLeaves.leaves.length = exchangedLeaves.leaves.length ∧
      NoCollision (joinedLeaves.preimages [] ++ exchangedLeaves.preimages []) ∧
      joinedLeaves.root ≠ exchangedLeaves.root) := by
  have hthree : Tree.ofLeaves threeLeaves.leaves = .ok threeLeaves := rfl
  have hrepeated : Tree.ofLeaves repeatedLeaves.leaves = .ok repeatedLeaves := rfl
  have hjoined : Tree.ofLeaves joinedLeaves.leaves = .ok joinedLeaves := rfl
  have hexchanged : Tree.ofLeaves exchangedLeaves.leaves = .ok exchangedLeaves := rfl
  obtain ⟨hif, honly, -⟩ := root_eq_iff_expansion_eq hthree hrepeated
  obtain ⟨-, -, hsame⟩ := root_eq_iff_expansion_eq hjoined hexchanged
  have hdepth : threeLeaves.depth = repeatedLeaves.depth := by decide +kernel
  have nc : NoCollision (threeLeaves.preimages [] ++ repeatedLeaves.preimages []) := by
    apply noCollision_repeated.mono
    exact List.append_subset.mpr
      ⟨List.subset_append_of_subset_left _ (List.subset_append_right _ _),
        List.subset_append_of_subset_right _ (List.subset_append_right _ _)⟩
  have hexpansion := (honly nc hdepth).mp root_eq_three.1
  have hlen : joinedLeaves.leaves.length = exchangedLeaves.leaves.length := rfl
  have nc' : NoCollision (joinedLeaves.preimages [] ++ exchangedLeaves.preimages []) := by
    decide +kernel
  have hother : joinedLeaves.leaves ≠ exchangedLeaves.leaves := by decide +kernel
  refine ⟨⟨hdepth, nc, hexpansion, hif hexpansion⟩, hlen, nc', ?_⟩
  intro hroot
  exact hother ((hsame nc' hlen).mp hroot)

/-! ## chunks for leaves -/

namespace Tree

/-- the byte string whose digest stands where some turns lead: two digests or, at a leaf, a chunk -/
def hashedAt (t : Tree) (chunks : List Bytes) (turns : List Bool) : Bytes :=
  if turns.length < t.depth then
    (t.digestAt (false :: turns)).bytes ++ (t.digestAt (true :: turns)).bytes
  else chunks.getD (t.reached turns) []

theorem hashedAt_of_lt (t : Tree) (chunks : List Bytes) {turns : List Bool}
    (h : turns.length < t.depth) :
    t.hashedAt chunks turns
      = (t.digestAt (false :: turns)).bytes ++ (t.digestAt (true :: turns)).bytes :=
  if_pos h

section
variable {t : Tree} {chunks : List Bytes} (ht : ofChunks chunks = .ok t) {turns : List Bool}
include ht

theorem getElem?_chunks (h : turns.length = t.depth) :
    chunks[t.reached turns]? = some (t.hashedAt chunks turns) := by
  have hlt := (List.getElem?_eq_some_iff.mp (t.getElem?_leaves h)).1
  have hin : t.reached turns < chunks.length := by
    rw [← leafCount_of_ofChunks ht]
    exact hlt
  rw [hashedAt, if_neg (Nat.not_lt.mpr (Nat.le_of_eq h.symm)), List.getD_eq_getElem?_getD,
    List.getElem?_eq_getElem hin]
  rfl

theorem sha256_hashedAt (h : turns.length ≤ t.depth) :
    sha256 (t.hashedAt chunks turns) = t.digestAt turns ∧
      t.hashedAt chunks turns ∈ t.preimages chunks := by
  rcases Nat.lt_or_eq_of_le h with hlt | hleaf
  · obtain ⟨hpair, hmem⟩ := digestAt_eq_pair chunks hlt
    rw [hashedAt_of_lt t chunks hlt]
    exact ⟨hpair.symm, hmem⟩
  · have hchunk := getElem?_chunks ht hleaf
    have hdigest := t.getElem?_leaves hleaf
    rw [leaves_of_ofChunks ht, List.getElem?_map, hchunk] at hdigest
    exact ⟨Option.some.inj hdigest, List.mem_append_left _ (List.mem_of_getElem? hchunk)⟩

end

/-- **Under one root the same turns lead to the same byte strings**, as far as both trees go. -/
theorem root_eq_iff_hashedAt_eq {cs ds : List Bytes} {s t : Tree} (hs : ofChunks cs = .ok s)
    (ht : ofChunks ds = .ok t) (nc : NoCollision (s.preimages cs ++ t.preimages ds)) :
    s.root = t.root ↔ ∀ turns : List Bool, turns.length = min s.depth t.depth →
      s.hashedAt cs turns = t.hashedAt ds turns := by
  have hleft : min s.depth t.depth ≤ s.depth := Nat.min_le_left _ _
  have hright : min s.depth t.depth ≤ t.depth := Nat.min_le_right _ _
  constructor
  · intro hroot turns hlen
    rw [← hlen] at hleft hright
    obtain ⟨hdigest, hmem⟩ := sha256_hashedAt hs hleft
    obtain ⟨hdigest', hmem'⟩ := sha256_hashedAt ht hright
    apply nc _ (List.mem_append_left _ hmem) _ (List.mem_append_right _ hmem')
    rw [hdigest, hdigest', digestAt_eq_of_root_eq nc hroot hleft hright]
  · intro h
    apply root_eq_of_spread_eq hleft hright
    rw [spread_eq_iff]
    intro turns hlen
    rw [← hlen] at hleft hright
    rw [← (sha256_hashedAt hs hleft).1, ← (sha256_hashedAt ht hright).1, h turns hlen]

end Tree

/-- **Which chunks a root stands for.**  As long as the byte strings hashed for two trees are told
apart, their roots agree if and only if the same byte strings have been hashed for all places at the
depth of the less deep tree.  So chunks of one number have a root of their own.  If the trees are of
one depth, the shorter list is the beginning of the longer one, which goes on with chunks that it
repeats: each stands where the bits of its number lead in the tree of the shorter list.  If the one
tree is less deep, each of its chunks is made of the two digests below the place where the bits of
its number lead in the other. -/
theorem chunks_of_root_eq {cs ds : List Bytes} {s t : Tree} (hs : Tree.ofChunks cs = .ok s)
    (ht : Tree.ofChunks ds = .ok t) (nc : NoCollision (s.preimages cs ++ t.preimages ds)) :
    (s.root = t.root ↔ ∀ turns : List Bool, turns.length = min s.depth t.depth →
      s.hashedAt cs turns = t.hashedAt ds turns) ∧
    (s.root = t.root → cs.length = ds.length → cs = ds) ∧
    (s.root = t.root → s.depth = t.depth → cs.length ≤ ds.length →
      cs <+: ds ∧ ∀ i, i < ds.length → ds[i]? = cs[s.reached (turnsTo s.depth i)]?) ∧
    (s.root = t.root → s.depth < t.depth → ∀ (i : Nat) (c : Bytes), cs[i]? = some c →
      c = (t.digestAt (false :: turnsTo s.depth i)).bytes ++
        (t.digestAt (true :: turnsTo s.depth i)).bytes ∧ c.length = 64) := by
  have hiff := Tree.root_eq_iff_hashedAt_eq hs ht nc
  have hcount := (Tree.leafCount_of_ofChunks hs).symm
  have hcount' := (Tree.leafCount_of_ofChunks ht).symm
  have hways : s.root = t.root → s.depth = t.depth → ∀ turns : List Bool,
      turns.length = s.depth → cs[s.reached turns]? = ds[t.reached turns]? := by
    intro hroot hdepth turns hlen
    have hmin : min s.depth t.depth = s.depth := Nat.min_eq_left (Nat.le_of_eq hdepth)
    rw [Tree.getElem?_chunks hs hlen, Tree.getElem?_chunks ht (hlen.trans hdepth),
      hiff.mp hroot turns (hlen.trans hmin.symm)]
  refine ⟨hiff, ?_, ?_, ?_⟩
  · intro hroot hlen
    have hdepth : s.depth = t.depth :=
      Tree.depth_eq_of_leafCount_eq (hcount.symm.trans (hlen.trans hcount'))
    exact (Tree.prefix_of_ways hdepth hcount' (hways hroot hdepth) hcount
      (Nat.le_of_eq hlen)).eq_of_length hlen
  · intro hroot hdepth hle
    refine ⟨Tree.prefix_of_ways hdepth hcount' (hways hroot hdepth) hcount hle, ?_⟩
    intro i hi
    exact Tree.getElem?_of_ways hdepth hcount' (hways hroot hdepth) hi
  · intro hroot hlt i c hc
    have hi : i < s.leafCount := by
      rw [← hcount]
      exact (List.getElem?_eq_some_iff.mp hc).1
    have hlen := length_turnsTo s.depth i
    have hchunk := Tree.getElem?_chunks hs hlen
    have hmin : min s.depth t.depth = s.depth := Nat.min_eq_left (Nat.le_of_lt hlt)
    rw [Tree.reached_turnsTo hi, hc, hiff.mp hroot _ (hlen.trans hmin.symm),
      Tree.hashedAt_of_lt t ds (by rw [hlen]; exact hlt), Option.some.injEq] at hchunk
    refine ⟨hchunk, ?_⟩
    rw [hchunk, List.length_append, Digest.length_bytes, Digest.length_bytes]
    rfl

theorem chunks_of_root_eq_repeated :
    (threeLeaves.root = repeatedLeaves.root ∧ threeChunks <+: repeatedChunks ∧
      repeatedChunks[3]? = threeChunks[threeLeaves.reached (turnsTo 2 3)]?) ∧
    (joinedLeaves.root = threeLeaves.root ∧ joinedLeaves.depth < threeLeaves.depth ∧
      joinedChunks[1]? = some ((threeLeaves.digestAt [false, true]).bytes ++
        (threeLeaves.digestAt [true, true]).bytes)) := by
  have hthree : Tree.ofChunks threeChunks = .ok threeLeaves := rfl
  have hrepeated : Tree.ofChunks repeatedChunks = .ok repeatedLeaves := rfl
  have hjoined : Tree.ofChunks joinedChunks = .ok joinedLeaves := rfl
  obtain ⟨hroot, hroot'⟩ := root_eq_three
  have hdepth : threeLeaves.depth = 2 ∧ repeatedLeaves.depth = 2 ∧ joinedLeaves.depth = 1 := by
    decide +kernel
  obtain ⟨htwo, htwo', hone⟩ := hdepth
  have hlonger := (chunks_of_root_eq hthree hrepeated noCollision_repeated).2.2.1 hroot
    (htwo.trans htwo'.symm) (by decide)
  have hdeeper := (chunks_of_root_eq hjoined hthree noCollision_joined).2.2.2 hroot'
    (by rw [hone, htwo]; decide) 1 _ rfl
  have hlast := hlonger.2 3 (by decide)
  rw [htwo] at hlast
  rw [hone] at hdeeper
  refine ⟨⟨hroot, hlonger.1, hlast⟩, hroot', by rw [hone, htwo]; decide, ?_⟩
  exact congrArg some hdeeper.1

/-- **Different chunks may have one root**, although no two byte strings that are hashed have the
same digest: a chunk is repeated, or chunks are the pairs of digests that are hashed for others. -/
theorem root_ambiguous :
    Tree.ofChunks threeChunks = .ok threeLeaves ∧
    (Tree.ofChunks repeatedChunks = .ok repeatedLeaves ∧ threeLeaves.root = repeatedLeaves.root ∧
      NoCollision (threeLeaves.preimages threeChunks ++ repeatedLeaves.preimages repeatedChunks) ∧
      threeChunks ≠ repeatedChunks) ∧
    (Tree.ofChunks joinedChunks = .ok joinedLeaves ∧ joinedLeaves.root = threeLeaves.root ∧
      NoCollision (joinedLeaves.preimages joinedChunks ++ threeLeaves.preimages threeChunks) ∧
      joinedChunks ≠ threeChunks) := by
  obtain ⟨hrepeated, hjoined⟩ := root_eq_three
  refine ⟨rfl, ⟨rfl, hrepeated, noCollision_repeated, ?_⟩, rfl, hjoined, noCollision_joined, ?_⟩
  · decide
  · intro h
    exact absurd (congrArg List.length h) (by decide)

end ChunkLedger.Merkle
