import ChunkLedger.Hash.Sha256

/-!
# Merkle trees

A tree over a nonempty list of digests, stored as its levels, leaves first:

```text
levels[2]:            R = H(A ‖ B)
levels[1]:      A = H(h0 ‖ h1)     B = H(h2 ‖ h2)
levels[0]:      h0        h1        h2
```

* `pairUp`      one level from the level below; the last digest of an odd level is paired with
                itself, and this second copy is not stored;
* `levelsOf`    all levels over a list of leaves, until one digest is left: the root;
* `Tree`        a list of leaves together with its levels.

A level of `n` digests has `(n + 1) / 2` above it (`length_pairUp`), so the levels end.
-/

namespace ChunkLedger.Merkle

/-! ## levels -/

def pairUp : List Digest → List Digest
  | a :: b :: rest => a.pair b :: pairUp rest
  | [a] => [a.pair a]
  | [] => []

@[simp] theorem pairUp_nil : pairUp [] = [] := rfl
@[simp] theorem pairUp_singleton (a : Digest) : pairUp [a] = [a.pair a] := rfl
@[simp] theorem pairUp_cons_cons (a b : Digest) (ds : List Digest) :
    pairUp (a :: b :: ds) = a.pair b :: pairUp ds := rfl

@[simp] theorem length_pairUp (ds : List Digest) : (pairUp ds).length = (ds.length + 1) / 2 := by
  induction ds using pairUp.induct with
  | case1 a b rest ih => simp only [pairUp_cons_cons, List.length_cons, ih]; omega
  | case2 a => simp
  | case3 => simp

/-- the levels over `leaves`, the leaves first -/
def levelsOf (leaves : List Digest) : List (List Digest) :=
  if 1 < leaves.length then leaves :: levelsOf (pairUp leaves) else [leaves]
termination_by leaves.length
decreasing_by rw [length_pairUp]; omega

theorem levelsOf_ne_nil (ds : List Digest) : levelsOf ds ≠ [] := by
  rw [levelsOf]; split <;> simp

theorem head_levelsOf (ds : List Digest) : (levelsOf ds).head? = some ds := by
  rw [levelsOf]; split <;> rfl

/-- the topmost level of a nonempty list is a single digest -/
theorem getLast_levelsOf {ds : List Digest} (h : ds ≠ []) :
    ∃ r, (levelsOf ds).getLast? = some [r] := by
  fun_induction levelsOf ds with
  | case1 ds hlt ih =>
    have hne : pairUp ds ≠ [] := by
      intro e
      have := congrArg List.length e
      rw [length_pairUp, List.length_nil] at this
      omega
    obtain ⟨r, hr⟩ := ih hne
    refine ⟨r, ?_⟩
    rw [List.getLast?_cons, hr]
    rfl
  | case2 ds hle =>
    match ds, h, hle with
    | [r], _, _ => exact ⟨r, rfl⟩
    | _ :: _ :: _, _, hle => simp at hle

/-! ## trees -/

/-- Why a tree or a proof cannot be had. -/
inductive Fault where
  | empty
  | leafOutOfRange (index leaves : Nat)
deriving DecidableEq, Repr

def Fault.message : Fault → String
  | .empty => "cannot build a Merkle tree from zero chunks"
  | .leafOutOfRange i n =>
    "leaf index " ++ toString i ++ " out of range for tree with " ++ toString n ++ " leaves"

structure Tree where
  leaves : List Digest
  leaves_ne_nil : leaves ≠ []
  levels : List (List Digest)
  levels_eq : levels = levelsOf leaves

namespace Tree

def ofLeaves (leaves : List Digest) : Except Fault Tree :=
  if h : leaves = [] then .error .empty else .ok ⟨leaves, h, levelsOf leaves, rfl⟩

def ofChunks (chunks : List Bytes) : Except Fault Tree := ofLeaves (chunks.map sha256)

def leafCount (t : Tree) : Nat := t.leaves.length

def depth (t : Tree) : Nat := t.levels.length - 1

theorem exists_root (t : Tree) : ∃ r, t.levels.getLast? = some [r] := by
  rw [t.levels_eq]; exact getLast_levelsOf t.leaves_ne_nil

/-- the one digest of the topmost level -/
def root (t : Tree) : Digest :=
  match h : t.levels.getLast? with
  | some (r :: _) => r
  | some [] => absurd h (by obtain ⟨r, hr⟩ := t.exists_root; simp [hr])
  | none => absurd h (by obtain ⟨r, hr⟩ := t.exists_root; simp [hr])

theorem levels_getLast (t : Tree) : t.levels.getLast? = some [t.root] := by
  obtain ⟨r, hr⟩ := t.exists_root
  have h : t.root = r := by
    unfold root
    split <;> rename_i e <;> rw [hr] at e <;> cases e
    rfl
  rw [h, hr]

theorem ofLeaves_of_ne_nil {ds : List Digest} (h : ds ≠ []) :
    ofLeaves ds = .ok ⟨ds, h, levelsOf ds, rfl⟩ := by
  simp [ofLeaves, h]

/-- there is a tree over any chunks, if there are any -/
theorem exists_ofChunks {chunks : List Bytes} (h : chunks ≠ []) : ∃ t, ofChunks chunks = .ok t :=
  ⟨_, ofLeaves_of_ne_nil (mt List.map_eq_nil_iff.mp h)⟩

/-- a tree is determined by its leaves -/
theorem ext_leaves {s t : Tree} (h : s.leaves = t.leaves) : s = t := by
  cases s with
  | mk leaves _ levels e =>
    cases t with
    | mk leaves' _ levels' e' =>
      cases h
      cases e
      cases e'
      rfl

theorem ofLeaves_eq_ok_iff {ds : List Digest} {t : Tree} : ofLeaves ds = .ok t ↔ t.leaves = ds := by
  constructor
  · intro h
    unfold ofLeaves at h
    split at h
    · cases h
    · cases h; rfl
  · intro h
    have hne : ds ≠ [] := h ▸ t.leaves_ne_nil
    rw [ofLeaves_of_ne_nil hne]
    congr 1
    exact ext_leaves h.symm

end Tree

end ChunkLedger.Merkle
