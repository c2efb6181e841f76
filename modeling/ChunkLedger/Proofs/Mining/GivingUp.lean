import ChunkLedger.Block.Check
import ChunkLedger.Proofs.Mining.Sealing

/-!
# What a miner that gives up leaves behind

After the last attempt the timestamp is moved once more and the digest is made anew, with the nonce
that the block had from the beginning.  No worker has looked at this digest unless the clock shows a
time that it showed before.  So the block that is left need not be unsealed: it is sealed exactly if
the new digest happens to be small enough (`sealed_of_exhausted_iff`), and this does happen
(`exhausted_and_sealed`).
-/

namespace ChunkLedger.Mining.Miner

variable {m : Miner} {s : Surroundings} {ts : Tokens} {b : Block}

/-- what is known of a miner that has given up, attempt by attempt -/
theorem right_of_exhausted {k : Nat} (h : (m.mine s ts b).result = .error (.exhausted k)) :
    k = m.config.maxRetries ∧
      (m.mine s ts b).block = Block.rehash { b with timestamp := s.clock m.config.maxRetries } ∧
      ∀ j, 1 ≤ j → j ≤ m.config.maxRetries → Vain m.config b (s.stamp b j) := by
  have hconfig : 0 < m.config.workers ∧ 0 < m.config.maxRetries := by
    apply config_of_result
    · rw [h]; exact nofun
    · rw [h]; exact nofun
  have hright : (attempts m.config m.token hconfig.1 s m.config.maxRetries 1 ts b).Right
      m.config s b _ := attempts_all_right hconfig.2
  rw [← mine_eq hconfig.1 hconfig.2, Mined.Right, h] at hright
  obtain ⟨hk, hblock, hhash, hvain⟩ := hright
  refine ⟨hk, ?_, hvain⟩
  generalize (m.mine s ts b).block = left at hblock hhash
  rw [hblock] at hhash
  rw [hblock, hhash]
  rfl

/-- **What giving up leaves behind.**  The block has the time of the last look at the clock, its old
nonce and the digest of its fields.  It is sealed exactly if this digest meets the difficulty; and
it is not if some attempt was made at this very time and its nonce was among those tried. -/
theorem sealed_of_exhausted_iff {k : Nat}
    (h : (m.mine s ts b).result = .error (.exhausted k)) :
    k = m.config.maxRetries ∧
      (m.mine s ts b).block = Block.rehash { b with timestamp := s.clock m.config.maxRetries } ∧
      ((m.mine s ts b).block.Sealed m.config.difficulty ↔
        Difficulty.meets
          ({ b with timestamp := s.clock m.config.maxRetries }.hashWithNonce b.nonce)
          m.config.difficulty = true) ∧
      (b.nonce ≤ m.config.nonceLimit →
        (∃ j, 1 ≤ j ∧ j ≤ m.config.maxRetries ∧ s.stamp b j = s.clock m.config.maxRetries) →
          ¬ (m.mine s ts b).block.Sealed m.config.difficulty) := by
  obtain ⟨hk, hblock, hvain⟩ := right_of_exhausted h
  have hsealed : (m.mine s ts b).block.Sealed m.config.difficulty ↔ Difficulty.meets
      ({ b with timestamp := s.clock m.config.maxRetries }.hashWithNonce b.nonce)
      m.config.difficulty = true := by
    rw [hblock]
    exact and_iff_right rfl
  refine ⟨hk, hblock, hsealed, ?_⟩
  rintro hnonce ⟨j, hj, hle, hstamp⟩ hs
  have hmiss := hvain j hj hle b.nonce hnonce
  rw [hstamp, hsealed.mp hs] at hmiss
  cases hmiss

/-- one worker, one attempt and the nonce 0 -/
def oneNonce : Miner := ⟨⟨1, 1, 1, 0⟩, [0]⟩

/-- nothing happens but that the clock shows so many seconds after the epoch -/
def clockAt (seconds : Int) : Surroundings :=
  .quiet fun _ => (Instant.ofParts? seconds 0).getD .epoch

theorem sealed_of_exhausted_iff_stopped :
    (oneNonce.mine (clockAt 0) ⟨{}, 1⟩ Block.genesis).result = .error (.exhausted 1) ∧
      ¬ (oneNonce.mine (clockAt 0) ⟨{}, 1⟩ Block.genesis).block.Sealed 1 := by
  have h : (oneNonce.mine (clockAt 0) ⟨{}, 1⟩ Block.genesis).result = .error (.exhausted 1) := by
    decide +kernel
  obtain ⟨-, -, -, hnot⟩ := sealed_of_exhausted_iff h
  exact ⟨h, hnot (by decide) ⟨1, Nat.le_refl 1, Nat.le_refl 1, rfl⟩⟩

/-- A miner gives up and leaves a sealed block: at the epoch the nonce 0 does not do, five seconds
later it would have done. -/
theorem exhausted_and_sealed :
    (oneNonce.mine (clockAt 5) ⟨{}, 1⟩ Block.genesis).result = .error (.exhausted 1) ∧
      (oneNonce.mine (clockAt 5) ⟨{}, 1⟩ Block.genesis).block.Sealed
        oneNonce.config.difficulty := by
  decide +kernel

end ChunkLedger.Mining.Miner
