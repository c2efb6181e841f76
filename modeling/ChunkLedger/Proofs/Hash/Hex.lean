import ChunkLedger.Hash.Digest
import ChunkLedger.Proofs.Text.Utf8

/-!
# Hexadecimal texts are read back

The bytes of an encoded text are its digits (`utf8_encode`), so that what was encoded is decoded
from it; a digest is found again from its 64 digits (`Digest.ofHex_toHex`).
-/

namespace ChunkLedger

namespace Hex

theorem digit_lt (n : Nat) : (digit n).toNat < 128 := by
  unfold digit
  split <;> decide

theorem lt_of_mem_digits {bs : Bytes} {b : UInt8} (h : b ∈ digits bs) : b.toNat < 128 := by
  obtain ⟨a, -, ha⟩ := List.mem_flatMap.mp h
  simp only [List.mem_cons, List.not_mem_nil, or_false] at ha
  rcases ha with rfl | rfl
  · exact digit_lt _
  · exact digit_lt _

theorem toNat_ofNat_byte {b : UInt8} (h : b.toNat < 128) : (Char.ofNat b.toNat).toNat = b.toNat := by
  have hvalid : b.toNat.isValidChar := .inl (by omega)
  rw [Char.ofNat, dif_pos hvalid]
  rfl

theorem utf8_encode (bs : Bytes) : utf8 (encode bs) = digits bs := by
  have hchar : ∀ c ∈ (digits bs).map (fun b => Char.ofNat b.toNat), c.toNat < 128 := by
    intro c hc
    obtain ⟨b, hb, rfl⟩ := List.mem_map.mp hc
    rw [toNat_ofNat_byte (lt_of_mem_digits hb)]
    exact lt_of_mem_digits hb
  rw [encode, utf8_ofList, charsUtf8_of_lt hchar, List.map_map]
  refine (List.map_congr_left fun b hb => ?_).trans (List.map_id _)
  show UInt8.ofNat (Char.ofNat b.toNat).toNat = b
  rw [toNat_ofNat_byte (lt_of_mem_digits hb), UInt8.ofNat_toNat]

/-- what is written is read back -/
theorem decode_encode (bs : Bytes) : decode (encode bs) = .ok bs := by
  rw [decode, utf8_encode, decodeDigits_digits]

/-- byte strings are told apart by their texts -/
theorem encode_inj {as bs : Bytes} (h : encode as = encode bs) : as = bs := by
  have e := decode_encode as
  rw [h, decode_encode] at e
  exact (Except.ok.inj e).symm

theorem decodeExactly_encode (bs : Bytes) : decodeExactly bs.length (encode bs) = .ok bs := by
  have heven : ¬ (digits bs).length % 2 = 1 := by
    rw [length_digits]
    omega
  have hlen : ¬ (digits bs).length ≠ 2 * bs.length := by
    rw [length_digits]
    exact fun h => h rfl
  rw [decodeExactly, utf8_encode]
  simp only [if_neg heven, if_neg hlen]
  rw [pairs_digits]
  rfl

end Hex

namespace Digest

/-- a digest is found again from its digits -/
theorem ofHex_toHex (d : Digest) : ofHex d.toHex = .ok d := by
  have h := Hex.decodeExactly_encode d.bytes
  rw [d.length_bytes] at h
  rw [ofHex, toHex, h]
  simp only [ofBytes?_bytes]

theorem toHex_ne_empty (d : Digest) : d.toHex ≠ "" := by
  intro h
  have hlen := congrArg (fun s => (utf8 s).length) h
  have hempty : utf8 "" = [] := utf8_ofList []
  simp only [toHex, Hex.utf8_encode, Hex.length_digits, d.length_bytes, hempty] at hlen
  exact absurd hlen (by decide)

end Digest

end ChunkLedger
