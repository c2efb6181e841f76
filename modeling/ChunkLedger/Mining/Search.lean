import ChunkLedger.Block.Basic

/-!
# The search of one worker

Worker `w` of `stride` workers tries the nonces `w`, `w + stride`, `w + 2 * stride`, ... up to a
limit.  Before each hash it looks whether it has been cancelled.

* `Task.probe`   one hash, and what follows from it;
* `Task.search`  looks and probes to the end, against any sequence of answers to the looks.

The next nonce is taken only if it is within the limit (`Task.next?`), so the sum never leaves 64
bits (`toNat_of_next?`) and the search ends.
-/

namespace ChunkLedger.Mining

/-- what the workers of an attempt have in common -/
structure Task where
  block : Block
  /-- the largest digest value that qualifies -/
  target : Nat
  stride : Nat
  stride_pos : 0 < stride
  /-- the largest nonce to try -/
  limit : UInt64

inductive Report where
  | found (nonce : UInt64) (hash : Digest)
  | exhausted
  | cancelled
deriving DecidableEq

/-- A worker about to try a nonce, or at its end. -/
inductive Progress where
  | next (nonce : UInt64)
  | stopped (r : Report)
deriving DecidableEq

namespace Task

def start (t : Task) (w : Nat) : Progress :=
  if w ≤ t.limit.toNat then .next (UInt64.ofNat w) else .stopped .exhausted

/-- the nonce after `n`, unless it is beyond the limit -/
def next? (t : Task) (n : UInt64) : Option UInt64 :=
  if n.toNat + t.stride ≤ t.limit.toNat then some (UInt64.ofNat (n.toNat + t.stride)) else none

def qualifies (t : Task) (n : UInt64) : Bool :=
  Difficulty.meetsTarget (t.block.hashWithNonce n) t.target

/-- the outcome of hashing with the nonce `n` -/
def probe (t : Task) (n : UInt64) : Progress :=
  let h := t.block.hashWithNonce n
  if Difficulty.meetsTarget h t.target then .stopped (.found n h)
  else
    match t.next? n with
    | some m => .next m
    | none => .stopped .exhausted

theorem toNat_of_next? {t : Task} {n m : UInt64} (h : t.next? n = some m) :
    m.toNat = n.toNat + t.stride ∧ m.toNat ≤ t.limit.toNat := by
  unfold next? at h
  split at h
  · rename_i hle
    have hl := t.limit.toNat_lt
    cases h
    have e : (UInt64.ofNat (n.toNat + t.stride)).toNat = n.toNat + t.stride := by
      rw [UInt64.toNat_ofNat']
      exact Nat.mod_eq_of_lt (by omega)
    omega
  · cases h

theorem next?_eq_none_iff {t : Task} {n : UInt64} :
    t.next? n = none ↔ t.limit.toNat < n.toNat + t.stride := by
  unfold next?
  split
  · simp; omega
  · simp; omega

theorem probe_eq_next {t : Task} {n m : UInt64} (h : t.probe n = .next m) : t.next? n = some m := by
  unfold probe at h
  simp only at h
  split at h
  · cases h
  · split at h
    · rename_i heq; cases h; exact heq
    · cases h

/-- The search from nonce `n` on, when the look number `i` is answered by `answers i`; the nonces
hashed are put before `tried`, last first. -/
def search (t : Task) (answers : Nat → Bool) (i : Nat) (tried : List UInt64) (n : UInt64) :
    List UInt64 × Report :=
  if answers i then (tried, .cancelled)
  else
    match h : t.probe n with
    | .stopped r => (n :: tried, r)
    | .next m => t.search answers (i + 1) (n :: tried) m
termination_by t.limit.toNat - n.toNat
decreasing_by
  have := toNat_of_next? (probe_eq_next h)
  have := t.stride_pos
  omega

/-- the search from a start (`Task.start`) or of a worker that has stopped already -/
def searchFrom (t : Task) (answers : Nat → Bool) (tried : List UInt64) :
    Progress → List UInt64 × Report
  | .next n => t.search answers 0 tried n
  | .stopped r => (tried, r)

end Task

end ChunkLedger.Mining
