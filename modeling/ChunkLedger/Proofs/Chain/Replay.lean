import ChunkLedger.Proofs.Chain.Built

/-!
# Verifying and replaying

A list of blocks can be made a chain unchecked and verified afterwards, or it can be replayed: a
chain is started from the first block, and the others are added one by one.  Both come to the same
(`replay_eq_verify`).

* `addAll`   blocks added to a chain one after the other, each at its own difficulty; the first
             fault ends it;
* `replay`   a chain started from a block and grown by others.

While the blocks are added, the tip of the chain so far is the block that verification compares the
next one with.
-/

namespace ChunkLedger.Chain

def addAll : Chain → List (Block × Nat) → Except Fault Chain
  | c, [] => .ok c
  | c, (b, d) :: rest => do
    let c ← c.add b d
    c.addAll rest

def replay (d : Nat) (b : Block) (bs : List Block) : Except Fault Chain := do
  let c ← start b
  c.addAll (bs.map (·, d))

theorem addAll_cons (c : Chain) (b : Block) (d : Nat) (rest : List (Block × Nat)) :
    c.addAll ((b, d) :: rest) = (c.add b d).bind fun c => c.addAll rest := rfl

theorem add_eq_map (c : Chain) (b : Block) (d : Nat) :
    c.add b d = (ofBlock (b.validate c.tip d)).map fun _ => c.append b := by
  unfold add
  cases b.validate c.tip d with
  | ok u => rfl
  | error f => rfl

/-- blocks are added one by one if the first belongs after the tip and the others after it -/
theorem addAll_cons_eq_ok {c a : Chain} {b : Block} {d : Nat} {rest : List (Block × Nat)} :
    c.addAll ((b, d) :: rest) = .ok a ↔
      b.validate c.tip d = .ok () ∧ (c.append b).addAll rest = .ok a := by
  rw [addAll_cons, add]
  cases b.validate c.tip d with
  | ok u => simp [Except.bind]
  | error f => simp [Except.bind]

theorem start_eq_map (b : Block) :
    start b = (ofBlock b.verifyGenesis).map fun _ => single b := by
  unfold start
  cases b.verifyGenesis with
  | ok u => rfl
  | error f => rfl

/-- adding blocks one by one finds what checking each beside the one before it finds -/
theorem addAll_eq_map (c : Chain) (bs : List Block) (d : Nat) :
    c.addAll (bs.map (·, d)) = (ofBlock (verifyAfter d c.tip bs)).map fun _ => bs.foldl append c := by
  induction bs generalizing c with
  | nil => rfl
  | cons b bs ih =>
    rw [List.map_cons, addAll_cons, add_eq_map, verifyAfter]
    cases b.validate c.tip d with
    | error f => rfl
    | ok u =>
      show (c.append b).addAll (bs.map (·, d)) = _
      rw [ih, tip_append, List.foldl_cons]

/-- the first block of the chain of some blocks, and those after it -/
theorem parts_foldl_append (b : Block) (bs : List Block) :
    (bs.foldl append (single b)).genesis = b ∧ (bs.foldl append (single b)).later = bs :=
  List.cons.inj (blocks_foldl_append (single b) bs)

/-- **Verification agrees with replaying.**  The chain made of some blocks verifies exactly when
each of them is accepted as the chain is replayed, and then the replayed chain is this chain, with
its indices; otherwise verification reports the fault at which replaying ends. -/
theorem replay_eq_verify (b : Block) (bs : List Block) (d : Nat) :
    ∃ c, ofBlocks? (b :: bs) = some c ∧ replay d b bs = (c.verify d).map fun _ => c := by
  refine ⟨bs.foldl append (single b), rfl, ?_⟩
  obtain ⟨hfirst, hlater⟩ := parts_foldl_append b bs
  rw [verify, hfirst, hlater, replay, start_eq_map]
  cases b.verifyGenesis with
  | error f => rfl
  | ok u =>
    show (single b).addAll (bs.map (·, d)) = _
    rw [addAll_eq_map, tip_single]

end ChunkLedger.Chain
