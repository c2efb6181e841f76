import ChunkLedger.Proofs.Block.Record
import ChunkLedger.Proofs.Wire.Package
import ChunkLedger.Wire.Payload

/-!
# Payloads are read back

A payload of each kind is read from the record that is written of it, with its fields sorted at
every depth (`read_sorted`).  What is written has no doubles, and is not deep.
-/

namespace ChunkLedger.Wire.Payload

section
variable {raw : String → Json.RawText} (h : Json.Faithful raw) (src : Json.Source)
include h

theorem readRecord_soleField (name label : String) {α : Type} {r : Json.Reader α}
    {v : Json.Value} {a : α} (hr : r (v.sorted.docBy raw) = .ok a) :
    (soleField name label r).readRecord src ((Json.Value.object [(label, v)]).sorted.docBy raw)
      = .ok fun _ => a :=
  (soleField name label r).readRecord_sorted (fun _ _ _ => rfl) (List.pairwise_singleton _ ()) src h
    (fun _ => v) (fun _ => hr)

theorem readRecord_noField (name : String) :
    (noField name).readRecord src ((Json.Value.object []).sorted.docBy raw)
      = .ok fun k => k.elim :=
  (noField name).readRecord_sorted (fun j => j.elim) List.nodup_nil src h (fun k => k.elim)
    (fun k => k.elim)

end

/-! ## requests for chunks -/

/-- what is written of a request in a field -/
def RequestField.value (root : Digest) (is : List UInt64) : RequestField → Json.Value
  | .merkleRoot => .text root.toHex
  | .indices => .array (is.map Json.Value.ofNat64)

def RequestField.content (root : Digest) (is : List UInt64) : (k : RequestField) → k.Content
  | .merkleRoot => root
  | .indices => is

theorem toValue_requestChunks (root : Digest) (is : List UInt64) :
    (requestChunks root is).toValue
      = .object (requestLayout.keys.map fun k => (requestLayout.label k, k.value root is)) := rfl

theorem requestLayout_label_inj (j k : RequestField)
    (h : requestLayout.label j = requestLayout.label k) : j = k := by
  revert h
  cases j <;> cases k <;> decide

variable {raw : String → Json.RawText}

theorem read_requestField (h : Json.Faithful raw) (root : Digest) (is : List UInt64)
    (k : RequestField) :
    requestLayout.read k ((k.value root is).sorted.docBy raw) = .ok (k.content root is) := by
  cases k with
  | merkleRoot =>
    rw [RequestField.value, Json.Value.sorted_text]
    exact Json.readDigest_docBy h root.ofHex_toHex
  | indices =>
    apply Json.readList_sorted
    intro i _
    rw [Json.Value.sorted_ofNat64]
    exact Json.readNatural_docBy raw _ i

/-! ## payloads -/

/-- **A payload is read back** as one of its kind. -/
theorem read_sorted (h : Json.Faithful raw) (src : Json.Source) (p : Payload) :
    read src p.kind (p.toValue.sorted.docBy raw) = .ok p := by
  cases p with
  | newBlock b =>
    have hrecord := readRecord_soleField h src "NewBlock" "block" (Block.read_sorted h src b)
    rw [kind, toValue, read]
    beta_reduce
    rw [hrecord]
    rfl
  | sendChunks ps =>
    have hlist := Json.readList_sorted Package.toValue
      (fun p (_ : p ∈ ps) => Package.read_sorted h src p)
    have hrecord := readRecord_soleField h src "SendChunks" "chunks" hlist
    rw [kind, toValue, read]
    beta_reduce
    rw [hrecord]
    rfl
  | requestChunks root is =>
    have hrecord := requestLayout.readRecord_sorted requestLayout_label_inj (by decide) src h _
      (read_requestField h root is)
    rw [kind, toValue_requestChunks, read]
    beta_reduce
    rw [hrecord]
    rfl
  | requestBlockchain =>
    rw [kind, toValue, read]
    beta_reduce
    rw [readRecord_noField h src]
    rfl

/-- no number in a payload is a double -/
theorem whole_toValue (p : Payload) : p.toValue.Whole := by
  cases p with
  | newBlock b => simp [toValue, Json.Value.Whole, Json.Value.WholeFields, b.whole_toValue]
  | sendChunks ps =>
    have hchunks := Json.Value.wholeItems_map Package.whole_toValue ps
    simp [toValue, Json.Value.Whole, Json.Value.WholeFields, hchunks]
  | requestChunks root is =>
    have hindices := Json.Value.wholeItems_map Json.Value.whole_ofNat64 is
    simp [toValue, Json.Value.Whole, Json.Value.WholeFields, hindices]
  | requestBlockchain => simp [toValue, Json.Value.Whole, Json.Value.WholeFields]

/-- chunks nest deepest: a step in a proof in a package in a list in a payload -/
theorem depth_toValue_le (p : Payload) : p.toValue.depth ≤ 5 := by
  cases p with
  | newBlock b => simp [toValue, Json.Value.depth, Json.Value.fieldsDepth, b.depth_toValue]
  | sendChunks ps =>
    have hchunks := Json.Value.itemsDepth_map_le Package.depth_toValue_le ps
    simp only [toValue, Json.Value.depth, Json.Value.fieldsDepth]
    omega
  | requestChunks root is =>
    have hindices := Json.Value.itemsDepth_map_le Json.Value.depth_ofNat64_le is
    simp only [toValue, Json.Value.depth, Json.Value.fieldsDepth]
    omega
  | requestBlockchain => simp [toValue, Json.Value.depth, Json.Value.fieldsDepth]

end ChunkLedger.Wire.Payload
