import ChunkLedger.Proofs.Hash.Collision
import ChunkLedger.Proofs.Merkle.Levels

/-!
# What an accepted proof shows

Whoever makes up a proof chooses the data, the length, the sides and the digests.  If the fold ends
at the root of a tree nevertheless, then it went along a path of the tree: the topmost pair is that
of the root, so its two parts are the children of the root, and so on down the levels
(`path_of_climb`).

So an accepted proof of full length is about the chunk at the leaf it reaches (`chunk_of_verify`),
and a shorter one is about a pair of stored digests (`halves_of_verify`).
-/

namespace ChunkLedger.Merkle

/-- what is hashed in a step of the fold -/
def Step.preimage (acc : Digest) (s : Step) : Bytes :=
  if s.isLeft then s.hash.bytes ++ acc.bytes else acc.bytes ++ s.hash.bytes

theorem Step.fold_eq (acc : Digest) (s : Step) : s.fold acc = sha256 (s.preimage acc) := by
  unfold fold preimage
  split <;> rfl

/-- what is hashed in the fold from the digest `d` -/
def climbPreimages : (d : Digest) → Proof → List Bytes
  | _, [] => []
  | d, s :: p => s.preimage d :: climbPreimages (s.fold d) p

/-- what is hashed when a proof for `data` is checked -/
def verifyPreimages (data : Bytes) (p : Proof) : List Bytes :=
  data :: climbPreimages (sha256 data) p

/-- the sides of the siblings; to the left of a sibling one goes to the right -/
def Proof.turns (p : Proof) : List Bool := p.map Step.isLeft

@[simp] theorem Proof.turns_cons (s : Step) (p : Proof) :
    Proof.turns (s :: p) = s.isLeft :: Proof.turns p := rfl

@[simp] theorem Proof.length_turns (p : Proof) : (Proof.turns p).length = p.length :=
  List.length_map ..

/-- a step that ends in a stored pair began in one of its halves, and its digest is the other -/
theorem Step.parts_of_fold {xs : List Bytes} (nc : NoCollision xs) {acc a b : Digest} {s : Step}
    (hs : s.preimage acc ∈ xs) (hab : a.bytes ++ b.bytes ∈ xs) (h : s.fold acc = a.pair b) :
    acc = (if s.isLeft then b else a) ∧ s.hash = (if s.isLeft then a else b) := by
  unfold fold at h
  unfold preimage at hs
  split at h <;> rename_i hleft
  · rw [if_pos hleft] at hs ⊢
    rw [if_pos hleft]
    obtain ⟨h1, h2⟩ := nc.pair_inj hs hab h
    exact ⟨h2, h1⟩
  · rw [if_neg hleft] at hs ⊢
    rw [if_neg hleft]
    exact nc.pair_inj hs hab h

section
variable {t : Tree} {chunks xs : List Bytes} (nc : NoCollision xs) (ht : t.preimages chunks ⊆ xs)
include nc ht

/-- one step down: below a node that a step leads to stand the step's start and its sibling -/
theorem children_of_fold {l : Nat} (hl : l < t.depth) {above : List Bool}
    (habove : t.depth - above.length = l + 1) {acc : Digest} {s : Step}
    (hs : s.preimage acc ∈ xs) (h : t.node? (l + 1) (t.reached above) = some (s.fold acc)) :
    t.node? l (t.reached (s.isLeft :: above)) = some acc ∧
      t.node? l (t.sibling (s.isLeft :: above)) = some s.hash := by
  obtain ⟨a, b, ha, hb, hd, hmem⟩ := Tree.children chunks hl h
  obtain ⟨hacc, hhash⟩ := Step.parts_of_fold nc hs (ht hmem) hd
  have hlevel : t.depth - (above.length + 1) = l := by omega
  rw [Tree.sibling_cons, Tree.reached_cons, Tree.reached_cons, hlevel, hacc, hhash]
  cases s.isLeft with
  | true => exact ⟨hb, ha⟩
  | false => exact ⟨ha, hb⟩

/-- **A fold that ends at the root goes along a path of the tree.** -/
theorem path_of_climb (p : Proof) (d : Digest) (hp : p.length ≤ t.depth)
    (hsub : climbPreimages d p ⊆ xs) (h : climb d p = t.root) :
    t.node? (t.depth - p.length) (t.reached p.turns) = some d ∧
      ∀ (k : Nat) (s : Step), p[k]? = some s →
        t.node? (t.depth - p.length + k) (t.sibling (p.turns.drop k)) = some s.hash := by
  induction p generalizing d with
  | nil =>
    refine ⟨?_, fun k s hk => by cases hk⟩
    show (t.level t.depth)[0]? = some d
    rw [t.level_depth, ← h]
    rfl
  | cons s p ih =>
    rw [List.length_cons] at hp
    obtain ⟨hs, hsub⟩ := List.cons_subset.mp hsub
    obtain ⟨hnode, hpath⟩ := ih (s.fold d) (by omega) hsub h
    have hup : t.depth - p.length = t.depth - (p.length + 1) + 1 := by omega
    rw [hup] at hnode
    obtain ⟨hd, hsib⟩ := children_of_fold nc ht (by omega) (by rw [Proof.length_turns, hup]) hs hnode
    refine ⟨hd, fun k s' hk => ?_⟩
    cases k with
    | zero => cases hk; exact hsib
    | succ k =>
      have hlevel : t.depth - (p.length + 1) + (k + 1) = t.depth - p.length + k := by omega
      rw [List.length_cons, hlevel]
      exact hpath k s' hk

end

/-! ## what is hashed at a node -/

section
variable {chunks xs : List Bytes} {t : Tree} (ht : Tree.ofChunks chunks = .ok t)
  (nc : NoCollision xs) (hsub : t.preimages chunks ⊆ xs)

include ht nc hsub in
/-- a byte string whose digest is a leaf is the chunk there -/
theorem chunk_of_leaf {data : Bytes} (hdata : data ∈ xs) {m : Nat}
    (h : t.node? 0 m = some (sha256 data)) : chunks[m]? = some data := by
  rw [Tree.node?, t.level_zero, Tree.leaves_of_ofChunks ht, List.getElem?_map] at h
  obtain ⟨c, hc, hhash⟩ := Option.map_eq_some_iff.mp h
  have hmem : c ∈ xs := hsub (List.mem_append_left _ (List.mem_of_getElem? hc))
  rw [hc, nc c hmem data hdata hhash]

include nc hsub in
/-- a byte string whose digest is stored above the leaves joins the digests below it -/
theorem halves_of_node {data : Bytes} (hdata : data ∈ xs) {l m : Nat} (hl : l < t.depth)
    (h : t.node? (l + 1) m = some (sha256 data)) :
    ∃ a b, t.node? l (childIndex (t.level l).length m false) = some a ∧
      t.node? l (childIndex (t.level l).length m true) = some b ∧ data = a.bytes ++ b.bytes := by
  obtain ⟨a, b, ha, hb, hd, hmem⟩ := Tree.children chunks hl h
  exact ⟨a, b, ha, hb, nc data hdata _ (hsub hmem) hd⟩

end

/-! ## accepted proofs -/

section
variable {chunks : List Bytes} {t : Tree} (ht : Tree.ofChunks chunks = .ok t) {data : Bytes}
  {p : Proof} (hv : verify data t.root p = true)
  (nc : NoCollision (t.preimages chunks ++ verifyPreimages data p))
include hv nc

/-- an accepted proof goes along a path of the tree from the root to its data -/
theorem path_of_verify (hp : p.length ≤ t.depth) :
    t.node? (t.depth - p.length) (t.reached p.turns) = some (sha256 data) ∧
      ∀ (k : Nat) (s : Step), p[k]? = some s →
        t.node? (t.depth - p.length + k) (t.sibling (p.turns.drop k)) = some s.hash := by
  have hclimb : climbPreimages (sha256 data) p ⊆ t.preimages chunks ++ verifyPreimages data p :=
    fun x hx => List.mem_append_right _ (List.mem_cons_of_mem _ hx)
  exact path_of_climb nc (List.subset_append_left _ _) p (sha256 data) hp hclimb
    (verify_eq_true_iff.mp hv)

include ht in
theorem chunk_of_verify (hp : p.length = t.depth) : chunks[t.reached p.turns]? = some data := by
  obtain ⟨hnode, -⟩ := path_of_verify hv nc (Nat.le_of_eq hp)
  rw [hp, Nat.sub_self] at hnode
  exact chunk_of_leaf ht nc (List.subset_append_left _ _)
    (List.mem_append_right _ List.mem_cons_self) hnode

theorem halves_of_verify (hp : p.length < t.depth) :
    ∃ a b, t.node? (t.depth - p.length - 1) (t.reached (false :: p.turns)) = some a ∧
      t.node? (t.depth - p.length - 1) (t.reached (true :: p.turns)) = some b ∧
      data = a.bytes ++ b.bytes := by
  obtain ⟨hnode, -⟩ := path_of_verify hv nc (Nat.le_of_lt hp)
  have hlevel : t.depth - p.length = t.depth - p.length - 1 + 1 := by omega
  have hbelow : t.depth - ((Proof.turns p).length + 1) = t.depth - p.length - 1 := by
    rw [Proof.length_turns]
    omega
  rw [hlevel] at hnode
  rw [Tree.reached_cons, Tree.reached_cons, hbelow]
  exact halves_of_node nc (List.subset_append_left _ _)
    (List.mem_append_right _ List.mem_cons_self) (by omega) hnode

end

/-- **Soundness of inclusion proofs.**  A proof no longer than the depth that is accepted for `data`
follows a path of the tree from the root down to the digest of `data`, and its digests are the
siblings stored along it.  So it is accepted for a chunk at the leaf it reaches or, if it is
shorter, for the 64 bytes of two stored siblings. -/
theorem verify_sound {chunks : List Bytes} {t : Tree} (ht : Tree.ofChunks chunks = .ok t)
    {data : Bytes} {p : Proof} (hp : p.length ≤ t.depth) (hv : verify data t.root p = true)
    (nc : NoCollision (t.preimages chunks ++ verifyPreimages data p)) :
    t.node? (t.depth - p.length) (t.reached p.turns) = some (sha256 data) ∧
    (∀ (k : Nat) (s : Step), p[k]? = some s →
      t.node? (t.depth - p.length + k) (t.sibling (p.turns.drop k)) = some s.hash) ∧
    (p.length = t.depth → chunks[t.reached p.turns]? = some data) ∧
    (p.length < t.depth → ∃ l r,
      t.node? (t.depth - p.length - 1) (t.reached (false :: p.turns)) = some l ∧
      t.node? (t.depth - p.length - 1) (t.reached (true :: p.turns)) = some r ∧
      data = l.bytes ++ r.bytes ∧ data.length = 64) := by
  obtain ⟨hnode, hpath⟩ := path_of_verify hv nc hp
  refine ⟨hnode, hpath, chunk_of_verify ht hv nc, fun hlt => ?_⟩
  obtain ⟨l, r, hl, hr, hparts⟩ := halves_of_verify hv nc hlt
  refine ⟨l, r, hl, hr, hparts, ?_⟩
  rw [hparts, List.length_append, l.length_bytes, r.length_bytes]
  rfl

/-- a tree with an odd level -/
def threeChunks : List Bytes := [[1], [2], [3]]

def threeLeaves : Tree := ⟨threeChunks.map sha256, by simp [threeChunks], _, rfl⟩

/-- a proof for the last chunk that takes it for a right child, which its odd place allows -/
def lastProof : Proof := [⟨sha256 [3], true⟩, ⟨(sha256 [1]).pair (sha256 [2]), true⟩]

theorem verify_sound_last :
    Tree.ofChunks threeChunks = .ok threeLeaves ∧ lastProof.length ≤ threeLeaves.depth ∧
      verify [3] threeLeaves.root lastProof = true ∧
      NoCollision (threeLeaves.preimages threeChunks ++ verifyPreimages [3] lastProof) ∧
      threeChunks[threeLeaves.reached (Proof.turns lastProof)]? = some [3] ∧
      threeLeaves.node? 1 (threeLeaves.sibling [true]) = some ((sha256 [1]).pair (sha256 [2])) := by
  have ht : Tree.ofChunks threeChunks = .ok threeLeaves := rfl
  have hd : threeLeaves.depth = 2 := by decide +kernel
  have hv : verify [3] threeLeaves.root lastProof = true := by decide +kernel
  have nc : NoCollision (threeLeaves.preimages threeChunks ++ verifyPreimages [3] lastProof) := by
    decide +kernel
  have hp : lastProof.length ≤ threeLeaves.depth := by rw [hd]; decide
  have h := verify_sound ht hp hv nc
  refine ⟨ht, hp, hv, nc, h.2.2.1 hd.symm, ?_⟩
  have h1 := h.2.1 1 _ rfl
  rw [hd] at h1
  exact h1

end ChunkLedger.Merkle
