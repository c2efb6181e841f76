import ChunkLedger.Proofs.Hash.Hex
import ChunkLedger.Proofs.Json.Record
import ChunkLedger.Wire.Package

/-!
# Chunk packages are read back

A package is read from the record that is written of it, with its fields sorted, whatever its data
and its proof (`Package.read_sorted`).
-/

namespace ChunkLedger

variable {raw : String → Json.RawText}

namespace Merkle.Step

/-- what a step has in a field -/
def Field.content (s : Step) : (k : Field) → k.Content
  | .hash => s.hash
  | .isLeft => s.isLeft

/-- what is written of a step in a field -/
def Field.value (s : Step) : Field → Json.Value
  | .hash => .text s.hash.toHex
  | .isLeft => .bool s.isLeft

theorem toValue_eq (s : Step) :
    s.toValue = .object (layout.keys.map fun k => (layout.label k, k.value s)) := rfl

theorem label_inj (j k : Field) (h : layout.label j = layout.label k) : j = k := by
  revert h
  cases j <;> cases k <;> decide

theorem sorted_value (s : Step) (k : Field) : (k.value s).sorted = k.value s := by
  cases k <;> simp [Field.value]

theorem read_value (h : Json.Faithful raw) (s : Step) (k : Field) :
    layout.read k ((k.value s).docBy raw) = .ok (k.content s) := by
  cases k with
  | hash => exact Json.readDigest_docBy h s.hash.ofHex_toHex
  | isLeft => exact Json.readBool_docBy raw s.isLeft

theorem read_docBy (h : Json.Faithful raw) (src : Json.Source) (s : Step) :
    read src (s.toValue.docBy raw) = .ok s := by
  have hrecord := layout.readRecord_docBy label_inj (by decide) src h _ (read_value h s)
  rw [toValue_eq, read, hrecord]
  rfl

theorem read_sorted (h : Json.Faithful raw) (src : Json.Source) (s : Step) :
    read src (s.toValue.sorted.docBy raw) = .ok s := by
  have hread (k : Field) : layout.read k ((k.value s).sorted.docBy raw) = .ok (k.content s) := by
    rw [sorted_value]
    exact read_value h s k
  have hrecord := layout.readRecord_sorted label_inj (by decide) src h _ hread
  rw [toValue_eq, read, hrecord]
  rfl

theorem whole_toValue (s : Step) : s.toValue.Whole := by
  simp [toValue, Json.Value.Whole, Json.Value.WholeFields]

theorem depth_toValue (s : Step) : s.toValue.depth = 1 := by
  simp [toValue, Json.Value.depth, Json.Value.fieldsDepth]

end Merkle.Step

namespace Wire.Package

open Merkle (Step)

/-- what a package has in a field -/
def Field.content (p : Package) : (k : Field) → k.Content
  | .merkleRoot => p.merkleRoot
  | .index => p.index
  | .data => p.data
  | .proof => p.proof

/-- what is written of a package in a field -/
def Field.value (p : Package) : Field → Json.Value
  | .merkleRoot => .text p.merkleRoot.toHex
  | .index => .ofNat64 p.index
  | .data => .text (Hex.encode p.data)
  | .proof => .array (p.proof.map Step.toValue)

theorem toValue_eq (p : Package) (src : Json.Source) :
    p.toValue
      = .object ((layout src).keys.map fun k => ((layout src).label k, k.value p)) := rfl

theorem label_inj (src : Json.Source) (j k : Field)
    (h : (layout src).label j = (layout src).label k) : j = k := by
  cases src <;> revert h <;> cases j <;> cases k <;> decide

theorem read_value (h : Json.Faithful raw) (src : Json.Source) (p : Package) (k : Field) :
    (layout src).read k ((k.value p).sorted.docBy raw) = .ok (k.content p) := by
  cases k with
  | merkleRoot =>
    rw [Field.value, Json.Value.sorted_text]
    exact Json.readDigest_docBy h p.merkleRoot.ofHex_toHex
  | index =>
    rw [Field.value, Json.Value.sorted_ofNat64]
    exact Json.readNatural_docBy raw _ p.index
  | data =>
    rw [Field.value, Json.Value.sorted_text]
    exact Json.readBytes_docBy h (Hex.decode_encode p.data)
  | proof => exact Json.readList_sorted Step.toValue (fun s _ => Step.read_sorted h src s)

theorem read_sorted (h : Json.Faithful raw) (src : Json.Source) (p : Package) :
    read src (p.toValue.sorted.docBy raw) = .ok p := by
  have hnd : (layout src).keys.Nodup := show [Field.merkleRoot, .index, .data, .proof].Nodup by decide
  have hrecord := (layout src).readRecord_sorted (label_inj src) hnd src h _ (read_value h src p)
  rw [toValue_eq p src, read, hrecord]
  rfl

theorem whole_toValue (p : Package) : p.toValue.Whole := by
  have hsteps := Json.Value.wholeItems_map Step.whole_toValue p.proof
  simp [toValue, Json.Value.Whole, Json.Value.WholeFields, Json.Value.ofNat64, Json.Number.Whole,
    hsteps]

theorem depth_toValue_le (p : Package) : p.toValue.depth ≤ 3 := by
  have hsteps := Json.Value.itemsDepth_map_le (fun s => Nat.le_of_eq (Step.depth_toValue s)) p.proof
  simp only [toValue, Json.Value.depth, Json.Value.fieldsDepth, Json.Value.ofNat64]
  omega

end Wire.Package

end ChunkLedger
