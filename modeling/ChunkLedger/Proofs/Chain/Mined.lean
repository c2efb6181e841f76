import ChunkLedger.Proofs.Chain.Offers
import ChunkLedger.Proofs.Mining.Sealing

/-!
# A mined successor is accepted

A block made to go after the tip of a chain keeps its index and its parent while it is mined, and
comes out with the digest of its fields, which meets the miner's difficulty.  This is what the chain
asks of a block, unless the tip has the last index there is: then no block follows it
(`nextIndex?_eq_none_iff`).
-/

namespace ChunkLedger.Chain

/-- the successor of a tip has the index after it, if there is one -/
theorem nextIndex?_successor {c : Chain} (h : c.tip.index.toNat + 1 < UInt64.size) (root : Digest)
    (now : Instant) : Block.nextIndex? c.tip.index = some (c.successor root now).index := by
  rw [Block.nextIndex?, if_pos h]
  exact congrArg some (if_pos h).symm

section
variable {c : Chain} {root : Digest} {now : Instant} {m : Mining.Miner} {s : Mining.Surroundings}
  {ts : Mining.Tokens} {o : Mining.Outcome}
  (h : (m.mine s ts (c.successor root now)).result = .ok o)
include h

/-- a mined successor has the digest of its fields, the parent and the index it was made with -/
theorem fields_of_mined :
    let b := (m.mine s ts (c.successor root now)).block
    b.hash = b.computedHash ∧ b.prevHash = some c.tip.hash ∧
      b.index = (c.successor root now).index ∧ b.meetsDifficulty m.config.difficulty = true := by
  obtain ⟨hblock, hhash, hmeets⟩ := Mining.Miner.sealed_of_ok h
  refine ⟨hhash, ?_, ?_, hmeets⟩
  · rw [hblock]
    rfl
  · rw [hblock]

/-- a mined successor may follow the tip -/
theorem validate_mined {d : Nat} (hd : d ≤ m.config.difficulty)
    (hlt : c.tip.index.toNat + 1 < UInt64.size) :
    (m.mine s ts (c.successor root now)).block.validate c.tip d = .ok () := by
  obtain ⟨hhash, hparent, hindex, hmeets⟩ := fields_of_mined h
  have hnext := nextIndex?_successor hlt root now
  rw [← hindex] at hnext
  exact Block.validate_eq_ok_iff.mpr ⟨hhash, hparent, hnext, Difficulty.meets_of_le hd hmeets⟩

/-- **A mined successor is always accepted.**  If a successor of the tip has been mined, with
whatever miner, clock, cancelled tokens and order of events, the chain accepts it at every
difficulty up to that of the miner; only if the tip has the last index it is refused for this
reason, and the chain stays as it is. -/
theorem offer_mined {d : Nat} (hd : d ≤ m.config.difficulty) :
    (c.tip.index.toNat + 1 < UInt64.size →
      c.offer (m.mine s ts (c.successor root now)).block d
        = (c.append (m.mine s ts (c.successor root now)).block, .ok ())) ∧
    (c.tip.index.toNat + 1 = UInt64.size →
      c.offer (m.mine s ts (c.successor root now)).block d
        = (c, .error (.invalidBlock (.nonSequentialIndex c.tip.index
            (m.mine s ts (c.successor root now)).block.index)))) := by
  constructor
  · intro hlt
    exact offer_of_valid (validate_mined h hd hlt)
  · intro hlast
    obtain ⟨hhash, hparent, -, -⟩ := fields_of_mined h
    apply offer_of_invalid
    rw [Block.validate, if_neg (not_not.mpr hhash), if_neg (not_not.mpr hparent),
      Block.nextIndex?_eq_none_iff.mpr hlast]
    rfl

end

/-- a chain whose tip has the last index there is -/
def full : Chain := single { Block.genesis with index := 0xffffffffffffffff }

/-- two workers and ten nonces -/
def tenNonces : Mining.Miner := ⟨⟨1, 2, 3, 9⟩, [0]⟩

/-- `tenNonces` mines a successor made at the epoch, where nothing else happens -/
def minedAfter (c : Chain) : Mining.Mined :=
  tenNonces.mine (.quiet fun _ => .epoch) ⟨{}, 1⟩ (c.successor .zero .epoch)

theorem offer_mined_tenNonces :
    (∃ o, initial.minedAfter.result = .ok o) ∧ (∃ o, full.minedAfter.result = .ok o) ∧
      initial.offer initial.minedAfter.block 1 = (initial.append initial.minedAfter.block, .ok ()) ∧
      full.offer full.minedAfter.block 0 = (full, .error (.invalidBlock
        (.nonSequentialIndex 0xffffffffffffffff full.minedAfter.block.index))) := by
  have hmined (c : Chain) (h : c.minedAfter.result.isOk = true) :
      ∃ o, c.minedAfter.result = .ok o := by
    cases e : c.minedAfter.result with
    | ok o => exact ⟨o, rfl⟩
    | error f => rw [e] at h; cases h
  obtain ⟨o, ho⟩ := hmined initial (by decide +kernel)
  obtain ⟨o', ho'⟩ := hmined full (by decide +kernel)
  exact ⟨⟨o, ho⟩, ⟨o', ho'⟩, (offer_mined ho (Nat.le_refl 1)).1 (by decide),
    (offer_mined ho' (Nat.zero_le 1)).2 (by decide)⟩

end ChunkLedger.Chain
