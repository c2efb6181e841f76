import ChunkLedger.Block.Record
import ChunkLedger.Proofs.Hash.Hex
import ChunkLedger.Proofs.Json.Record
import ChunkLedger.Proofs.Time.Rfc3339

/-!
# Blocks are read back

A block is read from the record that is written of it, field by field (`read_docBy`), also when its
fields have been sorted (`read_sorted`).
-/

namespace ChunkLedger.Block

/-- what a block has in a field -/
def Field.content (b : Block) : (k : Field) → k.Content
  | .index => b.index
  | .timestamp => b.timestamp
  | .merkleRoot => b.merkleRoot
  | .prevHash => b.prevHash
  | .hash => b.hash
  | .nonce => b.nonce

/-- what is written of a block in a field -/
def Field.value (b : Block) : Field → Json.Value
  | .index => .ofNat64 b.index
  | .timestamp => .text (Rfc3339.render b.timestamp)
  | .merkleRoot => .text b.merkleRoot.toHex
  | .prevHash => .text (prevText b.prevHash)
  | .hash => .text b.hash.toHex
  | .nonce => .ofNat64 b.nonce

theorem toValue_eq (b : Block) :
    b.toValue = .object (layout.keys.map fun k => (layout.label k, k.value b)) := rfl

theorem Field.label_inj (j k : Field) (h : j.label = k.label) : j = k := by
  revert h
  cases j <;> cases k <;> decide

/-- there is nothing to sort in a field -/
theorem sorted_value (b : Block) (k : Field) : (k.value b).sorted = k.value b := by
  cases k <;> simp [Field.value]

/-- no number in a block is a double -/
theorem whole_toValue (b : Block) : b.toValue.Whole := by
  simp [toValue, Json.Value.Whole, Json.Value.WholeFields, Json.Value.ofNat64, Json.Number.Whole]

theorem depth_toValue (b : Block) : b.toValue.depth = 1 := by
  simp [toValue, Json.Value.depth, Json.Value.fieldsDepth, Json.Value.ofNat64]

section
variable {raw : String → Json.RawText}

theorem readDigest?_prevText (h : Json.Faithful raw) (p : Option Digest) :
    Json.readDigest? ((Json.Value.text (prevText p)).docBy raw) = .ok p := by
  cases p with
  | none => exact Json.readDigest?_docBy_empty h
  | some d => exact Json.readDigest?_docBy h d.toHex_ne_empty d.ofHex_toHex

theorem read_value (h : Json.Faithful raw) (b : Block) (k : Field) :
    layout.read k ((k.value b).docBy raw) = .ok (k.content b) := by
  cases k with
  | index => exact Json.readNatural_docBy raw _ b.index
  | timestamp => exact Json.readInstant_docBy h (Rfc3339.read_render b.timestamp)
  | merkleRoot => exact Json.readDigest_docBy h b.merkleRoot.ofHex_toHex
  | prevHash => exact readDigest?_prevText h b.prevHash
  | hash => exact Json.readDigest_docBy h b.hash.ofHex_toHex
  | nonce => exact Json.readNatural_docBy raw _ b.nonce

/-- **A block is read back** from the document of its record. -/
theorem read_docBy (h : Json.Faithful raw) (src : Json.Source) (b : Block) :
    read src (b.toValue.docBy raw) = .ok b := by
  have hrecord := layout.readRecord_docBy Field.label_inj (by decide) src h _ (read_value h b)
  rw [toValue_eq, read, hrecord]
  rfl

theorem read_sorted (h : Json.Faithful raw) (src : Json.Source) (b : Block) :
    read src (b.toValue.sorted.docBy raw) = .ok b := by
  have hread (k : Field) : layout.read k ((k.value b).sorted.docBy raw) = .ok (k.content b) := by
    rw [sorted_value]
    exact read_value h b k
  have hrecord := layout.readRecord_sorted Field.label_inj (by decide) src h _ hread
  rw [toValue_eq, read, hrecord]
  rfl

end

end ChunkLedger.Block
