import ChunkLedger.Proofs.Merkle.Levels
import Mathlib.Algebra.Group.Nat.Defs

/-!
# Every chunk has a proof

Node `i` of a level and its sibling are the children of node `i / 2` of the level above, and the
parity of `i` tells on which side the sibling stands (`pairUp_fold`).  So from every leaf there is a
way up, one step for each level below the topmost, and the fold along it ends at the root
(`climb_of_steps`).  The step at level `k` starts from node `i / 2 ^ k` (`step_at`), whose parity is
bit `k` of `i`.
-/

namespace ChunkLedger.Merkle

/-- node `i` of a level, folded with its sibling, is node `i / 2` of the level above -/
theorem pairUp_fold {ds : List Digest} {i : Nat} {d : Digest} (h : ds[i]? = some d) :
    ∃ s, ds[siblingIndex ds.length i]? = some s ∧
      (pairUp ds)[i / 2]? = some (Step.fold d ⟨s, i % 2 = 1⟩) := by
  induction ds using pairUp.induct generalizing i with
  | case1 a b rest ih =>
    rcases i with _ | _ | i
    · cases h
      have e : siblingIndex (d :: b :: rest).length 0 = 1 := by simp [siblingIndex]
      refine ⟨b, ?_, rfl⟩
      rw [e]
      rfl
    · cases h
      exact ⟨a, rfl, rfl⟩
    · have h : rest[i]? = some d := h
      obtain ⟨s, hs, hup⟩ := ih h
      have hlt : i < rest.length := (List.getElem?_eq_some_iff.mp h).1
      have e : siblingIndex (a :: b :: rest).length (i + 2) = siblingIndex rest.length i + 2 := by
        simp only [siblingIndex, List.length_cons]
        split <;> split <;> omega
      have hhalf : (i + 2) / 2 = i / 2 + 1 := by omega
      have hside : (i + 2) % 2 = i % 2 := by omega
      refine ⟨s, ?_, ?_⟩
      · rw [e]
        exact hs
      · rw [hhalf, hside]
        exact hup
  | case2 a =>
    cases i with
    | zero =>
      cases h
      exact ⟨d, rfl, rfl⟩
    | succ i => cases h
  | case3 => cases h

theorem steps_cons {level : List Digest} {above : List (List Digest)} (h : above ≠ []) (i : Nat) :
    steps (level :: above) i = do
      let hash ← level[siblingIndex level.length i]?
      let rest ← steps above (i / 2)
      return ⟨hash, i % 2 = 1⟩ :: rest := by
  cases above with
  | nil => exact absurd rfl h
  | cons next above => rfl

/-- **The way up ends at the root**: from any node there is one, with a step for each level below
the topmost. -/
theorem climb_of_steps {ds : List Digest} {i : Nat} {d : Digest} (h : ds[i]? = some d) :
    ∃ p, steps (levelsOf ds) i = some p ∧ p.length + 1 = (levelsOf ds).length ∧
      (levelsOf ds).getLast? = some [climb d p] := by
  fun_induction levelsOf ds generalizing i d with
  | case1 ds hlt ih =>
    obtain ⟨s, hs, hup⟩ := pairUp_fold h
    obtain ⟨p, hp, hlen, hlast⟩ := ih hup
    refine ⟨⟨s, i % 2 = 1⟩ :: p, ?_, ?_, ?_⟩
    · rw [steps_cons (levelsOf_ne_nil _), hs, hp]
      rfl
    · rw [List.length_cons, List.length_cons, hlen]
    · rw [List.getLast?_cons, hlast]
      rfl
  | case2 ds hle =>
    refine ⟨[], rfl, rfl, ?_⟩
    have hi := (List.getElem?_eq_some_iff.mp h).1
    obtain rfl : i = 0 := by omega
    rcases ds with _ | ⟨a, _ | ⟨b, rest⟩⟩
    · cases h
    · cases h
      rfl
    · simp at hle

/-- the step of the way up at level `k` -/
theorem step_at {levels : List (List Digest)} {i : Nat} {p : Proof} (h : steps levels i = some p)
    {k : Nat} {s : Step} (hs : p[k]? = some s) :
    s.isLeft = i.testBit k ∧
      (levels.getD k [])[siblingIndex (levels.getD k []).length (i / 2 ^ k)]? = some s.hash := by
  induction levels generalizing i p k with
  | nil =>
    cases h
    cases hs
  | cons level above ih =>
    by_cases hne : above = []
    · rw [hne] at h
      cases h
      cases hs
    · rw [steps_cons hne] at h
      obtain ⟨d, hd, h⟩ := Option.bind_eq_some_iff.mp h
      obtain ⟨q, hq, h⟩ := Option.bind_eq_some_iff.mp h
      cases h
      cases k with
      | zero =>
        cases hs
        refine ⟨?_, ?_⟩
        · rw [Nat.testBit_zero]
        · rw [Nat.pow_zero, Nat.div_one]
          exact hd
      | succ k =>
        obtain ⟨hside, hhash⟩ := ih hq (show q[k]? = some s from hs)
        refine ⟨?_, ?_⟩
        · rw [hside, Nat.testBit_succ]
        · rw [Nat.pow_succ', ← Nat.div_div_eq_div_mul]
          exact hhash

namespace Tree

theorem prove_eq_ok {t : Tree} {i : Nat} {p : Proof} (hi : i < t.leafCount)
    (h : steps t.levels i = some p) : t.prove i = .ok p := by
  rw [prove, if_pos hi, h]

/-- every leaf of a tree has a proof, with a step for each level below the root and the bits of the
leaf's number as sides, and it leads from the leaf to the root -/
theorem exists_climb {t : Tree} {i : Nat} {d : Digest} (h : t.leaves[i]? = some d) :
    ∃ p, t.prove i = .ok p ∧ p.length = t.depth ∧
      (∀ (k : Nat) (s : Step), p[k]? = some s → s.isLeft = i.testBit k) ∧ climb d p = t.root := by
  obtain ⟨p, hp, hlen, hlast⟩ := climb_of_steps h
  rw [← t.levels_eq] at hp hlen hlast
  rw [t.length_levels] at hlen
  rw [t.levels_getLast, Option.some.injEq, List.singleton_inj] at hlast
  exact ⟨p, prove_eq_ok (List.getElem?_eq_some_iff.mp h).1 hp, Nat.succ.inj hlen,
    fun k s hs => (step_at hp hs).1, hlast.symm⟩

/-- a chunk of a tree has a proof, and it is accepted -/
theorem exists_proof {chunks : List Bytes} {t : Tree} (ht : ofChunks chunks = .ok t) {i : Nat}
    {data : Bytes} (h : chunks[i]? = some data) :
    ∃ p, t.prove i = .ok p ∧ verify data t.root p = true := by
  have hleaf : t.leaves[i]? = some (sha256 data) := by
    rw [leaves_of_ofChunks ht, List.getElem?_map, h]
    rfl
  obtain ⟨p, hp, -, -, hroot⟩ := exists_climb hleaf
  exact ⟨p, hp, verify_eq_true_iff.mpr hroot⟩

end Tree

/-- **Completeness of inclusion proofs.**  No chunks, no tree.  In the tree of some chunks there is
a proof for each chunk: it has a step for each level below the root, the one at level `k` is the
stored sibling of node `i / 2 ^ k` and stands to the left if bit `k` of `i` is set, and the proof is
accepted for the chunk.  Beyond the last chunk there is none. -/
theorem prove_complete :
    Tree.ofChunks [] = .error .empty ∧
    ∀ chunks : List Bytes, chunks ≠ [] → ∃ t, Tree.ofChunks chunks = .ok t ∧
      (∀ (i : Nat) (data : Bytes), chunks[i]? = some data → ∃ p, t.prove i = .ok p ∧
        p.length = t.depth ∧
        (∀ (k : Nat) (s : Step), p[k]? = some s → s.isLeft = i.testBit k ∧
          siblingIndex (t.level k).length (i / 2 ^ k) < (t.level k).length ∧
          t.node? k (siblingIndex (t.level k).length (i / 2 ^ k)) = some s.hash) ∧
        verify data t.root p = true) ∧
      ∀ i, chunks.length ≤ i → t.prove i = .error (.leafOutOfRange i chunks.length) := by
  constructor
  · rfl
  intro chunks hne
  obtain ⟨t, ht⟩ := Tree.exists_ofChunks hne
  have hcount := Tree.leafCount_of_ofChunks ht
  refine ⟨t, ht, ?_, ?_⟩
  · intro i data hdata
    have hleaf : t.leaves[i]? = some (sha256 data) := by
      rw [Tree.leaves_of_ofChunks ht, List.getElem?_map, hdata]
      rfl
    obtain ⟨p, hp, hlen, hlast⟩ := climb_of_steps hleaf
    rw [← t.levels_eq] at hp hlen hlast
    have hi : i < t.leafCount := (List.getElem?_eq_some_iff.mp hleaf).1
    refine ⟨p, Tree.prove_eq_ok hi hp, ?_, ?_, ?_⟩
    · rw [t.length_levels] at hlen
      exact Nat.succ.inj hlen
    · intro k s hs
      obtain ⟨hside, hhash⟩ := step_at hp hs
      exact ⟨hside, (List.getElem?_eq_some_iff.mp hhash).1, hhash⟩
    · rw [t.levels_getLast, Option.some.injEq, List.singleton_inj] at hlast
      exact verify_eq_true_iff.mpr hlast.symm
  · intro i hi
    rw [← hcount] at hi ⊢
    exact Tree.prove_of_le hi

/-- chunks of a tree whose second level is the odd one -/
def sixChunks : List Bytes := [[1], [2], [3], [4], [5], [6]]

def sixLeaves : Tree := ⟨sixChunks.map sha256, by simp [sixChunks], _, rfl⟩

/-- the last chunk: in the second level the way up meets a node that is its own sibling -/
theorem prove_complete_sixth : sixChunks ≠ [] ∧ ∃ p s, sixLeaves.prove 5 = .ok p ∧
    p.length = 3 ∧ p[1]? = some s ∧ s.isLeft = false ∧ sixLeaves.node? 1 2 = some s.hash ∧
    verify [6] sixLeaves.root p = true ∧ sixLeaves.prove 6 = .error (.leafOutOfRange 6 6) := by
  have hne : sixChunks ≠ [] := by decide
  have hdepth : sixLeaves.depth = 3 := by decide +kernel
  have hlevel : (sixLeaves.level 1).length = 3 := by decide +kernel
  obtain ⟨t, ht, hproof, hbeyond⟩ := prove_complete.2 sixChunks hne
  obtain rfl : sixLeaves = t := Except.ok.inj ht
  obtain ⟨p, hp, hlen, hsteps, hv⟩ := hproof 5 [6] rfl
  rw [hdepth] at hlen
  have hs : p[1]? = some p[1] := List.getElem?_eq_getElem _
  obtain ⟨hside, -, hhash⟩ := hsteps 1 p[1] hs
  rw [hlevel] at hhash
  exact ⟨hne, p, p[1], hp, hlen, hs, hside, hhash, hv, hbeyond 6 (by decide)⟩

end ChunkLedger.Merkle
