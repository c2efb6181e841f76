import ChunkLedger.Merkle.Tree

/-!
# Inclusion proofs

A proof that a chunk is a leaf of a tree lists, from the leaf up, the sibling at each level and
the side it stands on.  It is checked by folding: the running digest starts as that of the chunk,
is paired with each sibling in turn, and has to end as the root.

* `Step`        a sibling and its side;
* `steps`       the siblings along the way up from a leaf;
* `Tree.prove`  the proof for a leaf;
* `verify`      the check, which needs the root only.
-/

namespace ChunkLedger.Merkle

/-- the sibling at one level, and whether it stands to the left -/
structure Step where
  hash : Digest
  isLeft : Bool
deriving DecidableEq

abbrev Proof := List Step

/-- the running digest one level up -/
def Step.fold (acc : Digest) (s : Step) : Digest :=
  if s.isLeft then s.hash.pair acc else acc.pair s.hash

/-- the digest that a proof leads to from the digest `d` of a leaf -/
def climb (d : Digest) (p : Proof) : Digest := p.foldl Step.fold d

/-- the chunk `data` is a leaf under `root`, according to `proof` -/
def verify (data : Bytes) (root : Digest) (proof : Proof) : Bool :=
  climb (sha256 data) proof = root

@[simp] theorem climb_nil (d : Digest) : climb d [] = d := rfl
@[simp] theorem climb_cons (d : Digest) (s : Step) (p : Proof) :
    climb d (s :: p) = climb (s.fold d) p := rfl
theorem climb_append (d : Digest) (p q : Proof) : climb d (p ++ q) = climb (climb d p) q :=
  List.foldl_append

theorem verify_eq_true_iff {data : Bytes} {root : Digest} {proof : Proof} :
    verify data root proof = true ↔ climb (sha256 data) proof = root := decide_eq_true_iff

/-! ## the way up -/

/-- where the sibling of node `i` stands in a level of `n` digests; the odd last one is its own -/
def siblingIndex (n i : Nat) : Nat := if i % 2 = 1 then i - 1 else min (i + 1) (n - 1)

/-- the siblings met on the way up from node `i` of the first level to the last level -/
def steps : List (List Digest) → (i : Nat) → Option Proof
  | level :: next :: above, i => do
    let hash ← level[siblingIndex level.length i]?
    let rest ← steps (next :: above) (i / 2)
    return ⟨hash, i % 2 = 1⟩ :: rest
  | _, _ => some []

/-- the proof for leaf `i`, from the leaf up -/
def Tree.prove (t : Tree) (i : Nat) : Except Fault Proof :=
  if i < t.leafCount then
    match steps t.levels i with
    | some p => .ok p
    | none => .error (.leafOutOfRange i t.leafCount)
  else .error (.leafOutOfRange i t.leafCount)

@[simp] theorem steps_nil (i : Nat) : steps [] i = some [] := rfl
@[simp] theorem steps_singleton (level : List Digest) (i : Nat) : steps [level] i = some [] := rfl

theorem Tree.prove_of_le {t : Tree} {i : Nat} (h : t.leafCount ≤ i) :
    t.prove i = .error (.leafOutOfRange i t.leafCount) := by
  rw [prove, if_neg (by omega)]

end ChunkLedger.Merkle
