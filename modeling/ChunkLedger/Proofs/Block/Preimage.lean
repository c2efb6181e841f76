import ChunkLedger.Block.Check
import ChunkLedger.Proofs.Hash.Collision

/-!
# What a block's digest is taken over

The preimage is one byte string made of six parts without separators, the last of which may be
missing.  All parts but the last have a fixed length, so the parts can be cut out again:

* `Block.secondsWord_inj`   an instant's seconds are within 63 bits, so their word determines them;
* `Block.preimage_inj`      the preimage determines every field that enters it, and whether there is
                            a parent;
* `Block.AgreesWith`        two blocks are the same but for the digest that is stored in them.

So the digest of a block stands for all of it but the stored one, as long as the hash function tells
the two preimages apart (`Block.computedHash_eq_iff`).
-/

namespace ChunkLedger.Block

theorem secondsWord_lt (t : Instant) : secondsWord t < UInt64.size := by
  unfold secondsWord UInt64.size
  omega

/-- the word determines the seconds: no instant is 2 ^ 63 seconds away from the epoch -/
theorem secondsWord_inj {s t : Instant} (h : secondsWord s = secondsWord t) :
    s.seconds = t.seconds := by
  have hs := s.first_le
  have hs' := s.le_last
  have ht := t.first_le
  have ht' := t.le_last
  unfold secondsWord UInt64.size at h
  omega

theorem nanos_lt_word (t : Instant) : t.nanos < UInt32.size := by
  have h := t.nanos_lt
  unfold nanosPerSecond at h
  unfold UInt32.size
  omega

/-- the digest of the block before takes 32 bytes or none, so its bytes tell if there is one -/
theorem parentBytes_inj {p q : Option Digest}
    (h : (p.map Digest.bytes).getD [] = (q.map Digest.bytes).getD []) : p = q := by
  cases p with
  | none =>
    cases q with
    | none => rfl
    | some d =>
      have hl := congrArg List.length h
      rw [show ((some d).map Digest.bytes).getD [] = d.bytes from rfl, d.length_bytes] at hl
      cases hl
  | some c =>
    cases q with
    | none =>
      have hl := congrArg List.length h
      rw [show ((some c).map Digest.bytes).getD [] = c.bytes from rfl, c.length_bytes] at hl
      cases hl
    | some d => exact congrArg some (Digest.ext h)

/-- **The preimage is unambiguous**: it determines the fields that enter it, and the nonce. -/
theorem preimage_inj {b c : Block} {m n : UInt64} (h : b.preimage m = c.preimage n) :
    b.index = c.index ∧ b.timestamp = c.timestamp ∧ m = n ∧ b.merkleRoot = c.merkleRoot ∧
      b.prevHash = c.prevHash := by
  unfold preimage at h
  simp only [List.append_assoc] at h
  obtain ⟨hi, h⟩ := List.append_inj h (by simp)
  obtain ⟨hs, h⟩ := List.append_inj h (by simp)
  obtain ⟨hn, h⟩ := List.append_inj h (by simp)
  obtain ⟨hm, h⟩ := List.append_inj h (by simp)
  obtain ⟨hr, hp⟩ := List.append_inj h (by rw [Digest.length_bytes, Digest.length_bytes])
  have word (i : UInt64) : i.toNat < 256 ^ 8 := i.toNat_lt
  have hs' : secondsWord b.timestamp = secondsWord c.timestamp :=
    Bytes.bigEndian_inj (secondsWord_lt _) (secondsWord_lt _) hs
  refine ⟨?_, ?_, ?_, Digest.ext hr, parentBytes_inj hp⟩
  · exact UInt64.toNat_inj.mp (Bytes.bigEndian_inj (word _) (word _) hi)
  · exact Instant.ext (secondsWord_inj hs')
      (Bytes.bigEndian_inj (nanos_lt_word _) (nanos_lt_word _) hn)
  · exact UInt64.toNat_inj.mp (Bytes.bigEndian_inj (word _) (word _) hm)

/-- blocks with the same preimage and the same stored digest are the same -/
theorem eq_of_preimage_eq {b c : Block} (h : b.preimage b.nonce = c.preimage c.nonce)
    (hh : b.hash = c.hash) : b = c := by
  obtain ⟨hi, ht, hn, hr, hp⟩ := preimage_inj h
  cases b
  cases c
  cases hi
  cases ht
  cases hn
  cases hr
  cases hp
  cases hh
  rfl

/-! ## what a digest stands for -/

/-- the blocks are the same, whatever digests are stored in them -/
structure AgreesWith (b c : Block) : Prop where
  index : b.index = c.index
  timestamp : b.timestamp = c.timestamp
  nonce : b.nonce = c.nonce
  merkleRoot : b.merkleRoot = c.merkleRoot
  prevHash : b.prevHash = c.prevHash

theorem AgreesWith.preimage_eq {b c : Block} (h : b.AgreesWith c) :
    b.preimage b.nonce = c.preimage c.nonce := by
  unfold preimage
  rw [h.index, h.timestamp, h.nonce, h.merkleRoot, h.prevHash]

theorem preimage_eq_iff {b c : Block} :
    b.preimage b.nonce = c.preimage c.nonce ↔ b.AgreesWith c := by
  constructor
  · intro h
    obtain ⟨hi, ht, hn, hr, hp⟩ := preimage_inj h
    exact ⟨hi, ht, hn, hr, hp⟩
  · exact AgreesWith.preimage_eq

/-- **A digest stands for all fields but the stored digest.**  Blocks that agree in them have one
preimage, and so one digest; blocks that do not have two preimages, and so two digests unless the
hash function confuses the two. -/
theorem computedHash_eq_iff (b c : Block) :
    (b.preimage b.nonce = c.preimage c.nonce ↔ b.AgreesWith c) ∧
    (b.AgreesWith c → b.computedHash = c.computedHash) ∧
    (NoCollision [b.preimage b.nonce, c.preimage c.nonce] →
      (b.computedHash = c.computedHash ↔ b.AgreesWith c)) := by
  have hif : b.AgreesWith c → b.computedHash = c.computedHash :=
    fun h => congrArg sha256 h.preimage_eq
  refine ⟨preimage_eq_iff, hif, fun nc => ⟨fun h => ?_, hif⟩⟩
  have hpreimage : b.preimage b.nonce = c.preimage c.nonce :=
    nc _ (by simp) _ (by simp) h
  exact preimage_eq_iff.mp hpreimage

/-- a first block in the leap second before 1970 -/
def beforeEpoch : Block :=
  { genesis with timestamp := (Instant.ofParts? (-1) 1500000000).getD .epoch }

/-- the same block as the successor of the one whose digest is zero -/
def withParent : Block := { beforeEpoch with prevHash := some .zero }

theorem computedHash_eq_iff_beforeEpoch :
    beforeEpoch.timestamp.seconds = -1 ∧ beforeEpoch.timestamp.nanos = 1500000000 ∧
      beforeEpoch.AgreesWith beforeEpoch.rehash ∧
      beforeEpoch.computedHash = beforeEpoch.rehash.computedHash ∧
      NoCollision [beforeEpoch.preimage beforeEpoch.nonce, withParent.preimage withParent.nonce] ∧
      beforeEpoch.computedHash ≠ withParent.computedHash := by
  have hagrees : beforeEpoch.AgreesWith beforeEpoch.rehash := ⟨rfl, rfl, rfl, rfl, rfl⟩
  have nc : NoCollision
      [beforeEpoch.preimage beforeEpoch.nonce, withParent.preimage withParent.nonce] := by
    decide +kernel
  have hsame := (computedHash_eq_iff beforeEpoch beforeEpoch.rehash).2.1 hagrees
  have hiff := (computedHash_eq_iff beforeEpoch withParent).2.2 nc
  refine ⟨rfl, rfl, hagrees, hsame, nc, fun h => ?_⟩
  exact absurd (hiff.mp h).prevHash nofun

end ChunkLedger.Block
