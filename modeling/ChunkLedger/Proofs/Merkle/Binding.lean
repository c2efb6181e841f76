import ChunkLedger.Proofs.Merkle.Completeness
import ChunkLedger.Proofs.Merkle.Reached

/-!
# What a root binds without its tree

Whoever checks a proof has the root alone.  Two proofs that are accepted for it have a last step
each, and these two have hashed the same byte string.  If their siblings stand on the same side,
then they are one step, and what they started from is the same; and so on down to the data
(`climb_inj`).

With the side of one step changed, the fold stays as it was if that step pairs a digest with itself,
as it does at the odd last node of a level (`climb_flipped_of_hash_eq`), and not otherwise
(`hash_eq_of_climb_flipped`).
-/

namespace ChunkLedger.Merkle

/-- the sibling on the other side -/
def Step.flip (s : Step) : Step := { s with isLeft := !s.isLeft }

/-- the proof with the side of step `k` changed -/
def Proof.flip (p : Proof) (k : Nat) : Proof := p.modify k Step.flip

/-! ## one step -/

theorem Step.preimage_inj {d d' : Digest} {s s' : Step} (hside : s.isLeft = s'.isLeft)
    (h : s.preimage d = s'.preimage d') : d = d' ∧ s = s' := by
  obtain ⟨hash, isLeft⟩ := s
  obtain ⟨hash', isLeft'⟩ := s'
  obtain rfl : isLeft = isLeft' := hside
  cases isLeft with
  | true =>
    obtain ⟨hhash, hd⟩ := Digest.pair_preimage_inj
      (show hash.bytes ++ d.bytes = hash'.bytes ++ d'.bytes from h)
    exact ⟨hd, by rw [hhash]⟩
  | false =>
    obtain ⟨hd, hhash⟩ := Digest.pair_preimage_inj
      (show d.bytes ++ hash.bytes = d'.bytes ++ hash'.bytes from h)
    exact ⟨hd, by rw [hhash]⟩

/-- on the other side the same is hashed only if a digest is paired with itself -/
theorem Step.preimage_flip_eq_iff {d : Digest} {s : Step} :
    s.flip.preimage d = s.preimage d ↔ s.hash = d := by
  obtain ⟨hash, isLeft⟩ := s
  constructor
  · intro h
    cases isLeft with
    | true =>
      exact (Digest.pair_preimage_inj
        (show d.bytes ++ hash.bytes = hash.bytes ++ d.bytes from h)).2
    | false =>
      exact (Digest.pair_preimage_inj
        (show hash.bytes ++ d.bytes = d.bytes ++ hash.bytes from h)).1
  · intro h
    obtain rfl : hash = d := h
    cases isLeft <;> rfl

/-! ## the whole fold -/

/-- **Proofs with the same sides that lead to one digest are the same, and start from the same.** -/
theorem climb_inj {xs : List Bytes} (nc : NoCollision xs) {p p' : Proof} {d d' : Digest}
    (hsides : p.turns = p'.turns) (hp : climbPreimages d p ⊆ xs) (hp' : climbPreimages d' p' ⊆ xs)
    (h : climb d p = climb d' p') : d = d' ∧ p = p' := by
  induction p generalizing p' d d' with
  | nil =>
    obtain rfl : p' = [] := List.map_eq_nil_iff.mp hsides.symm
    exact ⟨h, rfl⟩
  | cons s p ih =>
    cases p' with
    | nil => cases hsides
    | cons s' p' =>
      rw [Proof.turns_cons, Proof.turns_cons, List.cons.injEq] at hsides
      obtain ⟨hside, hsides⟩ := hsides
      obtain ⟨hs, hp⟩ := List.cons_subset.mp hp
      obtain ⟨hs', hp'⟩ := List.cons_subset.mp hp'
      -- the steps above agree, and start from one digest; so `s` and `s'` have hashed one pair
      obtain ⟨hfold, rfl⟩ := ih hsides hp hp' h
      rw [Step.fold_eq, Step.fold_eq] at hfold
      obtain ⟨rfl, rfl⟩ := Step.preimage_inj hside (nc _ hs _ hs' hfold)
      exact ⟨rfl, rfl⟩

theorem climbPreimages_at (d : Digest) (below : Proof) (s : Step) (above : Proof) :
    climbPreimages d (below ++ s :: above)
      = climbPreimages d below ++
        s.preimage (climb d below) :: climbPreimages (s.fold (climb d below)) above :=
  climbPreimages_append d below (s :: above)

theorem climb_at (d : Digest) (below : Proof) (s : Step) (above : Proof) :
    climb d (below ++ s :: above) = climb (s.fold (climb d below)) above :=
  climb_append d below (s :: above)

theorem climb_flipped_of_hash_eq {d : Digest} {below : Proof} {s : Step} (above : Proof)
    (h : s.hash = climb d below) :
    climb d (below ++ s.flip :: above) = climb d (below ++ s :: above) := by
  rw [climb_at, climb_at, Step.fold_eq, Step.fold_eq, Step.preimage_flip_eq_iff.mpr h]

theorem hash_eq_of_climb_flipped {xs : List Bytes} (nc : NoCollision xs) {d : Digest}
    {below : Proof} {s : Step} {above : Proof} (hp : climbPreimages d (below ++ s :: above) ⊆ xs)
    (hp' : climbPreimages d (below ++ s.flip :: above) ⊆ xs)
    (h : climb d (below ++ s.flip :: above) = climb d (below ++ s :: above)) :
    s.hash = climb d below := by
  rw [climbPreimages_at] at hp hp'
  obtain ⟨hs, habove⟩ := List.cons_subset.mp (List.append_subset.mp hp).2
  obtain ⟨hs', habove'⟩ := List.cons_subset.mp (List.append_subset.mp hp').2
  rw [climb_at, climb_at] at h
  have hfold : s.flip.fold (climb d below) = s.fold (climb d below) :=
    (climb_inj nc rfl habove' habove h).1
  rw [Step.fold_eq, Step.fold_eq] at hfold
  exact Step.preimage_flip_eq_iff.mp (nc _ hs' _ hs hfold)

/-- the proof around step `k`, and the same with its side changed -/
theorem Proof.exists_split {p : Proof} {k : Nat} {s : Step} (h : p[k]? = some s) :
    ∃ below above, p = below ++ s :: above ∧ p.flip k = below ++ s.flip :: above ∧
      p.take k = below := by
  obtain ⟨hk, rfl⟩ := List.getElem?_eq_some_iff.mp h
  refine ⟨p.take k, p.drop (k + 1), ?_, List.modify_eq_take_cons_drop hk, rfl⟩
  rw [← List.drop_eq_getElem_cons hk, List.take_append_drop]

/-- **A root binds data and proof to the sides.**  For one root, whatever it comes from, at most one
byte string and one proof with given sides are accepted.  If the side of one step is changed, an
accepted proof is accepted still if the digest of this step is the running digest before it, and
only then. -/
theorem verify_binds (root : Digest) :
    (∀ (data data' : Bytes) (p p' : Proof), verify data root p = true →
      verify data' root p' = true → p.turns = p'.turns →
      NoCollision (verifyPreimages data p ++ verifyPreimages data' p') → data = data' ∧ p = p') ∧
    ∀ (data : Bytes) (p : Proof) (k : Nat) (s : Step), verify data root p = true →
      p[k]? = some s →
      (s.hash = climb (sha256 data) (p.take k) → verify data root (p.flip k) = true) ∧
      (NoCollision (verifyPreimages data p ++ verifyPreimages data (p.flip k)) →
        verify data root (p.flip k) = true → s.hash = climb (sha256 data) (p.take k)) := by
  constructor
  · intro data data' p p' hv hv' hsides nc
    rw [verify_eq_true_iff] at hv hv'
    obtain ⟨hsub, hsub'⟩ := List.append_subset.mp (List.Subset.refl (_ ++ _))
    obtain ⟨hdata, hp⟩ := List.cons_subset.mp hsub
    obtain ⟨hdata', hp'⟩ := List.cons_subset.mp hsub'
    obtain ⟨hdigest, hproof⟩ := climb_inj nc hsides hp hp' (hv.trans hv'.symm)
    exact ⟨nc data hdata data' hdata' hdigest, hproof⟩
  · intro data p k s hv hs
    obtain ⟨below, above, rfl, hflip, htake⟩ := Proof.exists_split hs
    rw [hflip, htake]
    rw [verify_eq_true_iff] at hv ⊢
    constructor
    · intro h
      rw [climb_flipped_of_hash_eq above h]
      exact hv
    · intro nc hv'
      obtain ⟨hsub, hsub'⟩ := List.append_subset.mp (List.Subset.refl (_ ++ _))
      exact hash_eq_of_climb_flipped nc (List.cons_subset.mp hsub).2 (List.cons_subset.mp hsub').2
        (hv'.trans hv.symm)

/-- the proof that the tree gives for its last chunk -/
def givenProof : Proof := [⟨sha256 [3], false⟩, ⟨(sha256 [1]).pair (sha256 [2]), true⟩]

/-- the last of three chunks stands to either side of itself; the pair above it does not -/
theorem verify_binds_last :
    (threeLeaves.prove 2 = .ok givenProof ∧ verify [3] threeLeaves.root givenProof = true) ∧
    (verify [3] threeLeaves.root (Proof.flip lastProof 0) = true ∧
      Proof.flip lastProof 0 = givenProof) ∧
    verify [3] threeLeaves.root (Proof.flip lastProof 1) = false := by
  obtain ⟨hsame, hflip⟩ := verify_binds threeLeaves.root
  have hgiven : threeLeaves.prove 2 = .ok givenProof :=
    Tree.prove_eq_ok (by decide) (by decide +kernel)
  have hv : verify [3] threeLeaves.root givenProof = true := by decide +kernel
  have hv' : verify [3] threeLeaves.root lastProof = true := by decide +kernel
  have hpasses : verify [3] threeLeaves.root (Proof.flip lastProof 0) = true :=
    (hflip [3] lastProof 0 _ hv' rfl).1 rfl
  have nc : NoCollision (verifyPreimages [3] lastProof ++
      verifyPreimages [3] (Proof.flip lastProof 1)) := by decide +kernel
  have nc' : NoCollision (verifyPreimages [3] (Proof.flip lastProof 0) ++
      verifyPreimages [3] givenProof) :=
    nc.mono (List.append_subset.mpr ⟨List.subset_append_left _ _, List.subset_append_left _ _⟩)
  have hother : (sha256 [1]).pair (sha256 [2]) ≠ climb (sha256 [3]) (lastProof.take 1) := by
    decide +kernel
  refine ⟨⟨hgiven, hv⟩, ⟨hpasses, (hsame [3] [3] _ _ hpasses hv rfl nc').2⟩, ?_⟩
  rw [Bool.eq_false_iff]
  intro hv1
  exact hother ((hflip [3] lastProof 1 _ hv' rfl).2 nc hv1)

end ChunkLedger.Merkle
