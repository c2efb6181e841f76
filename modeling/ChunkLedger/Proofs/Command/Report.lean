import ChunkLedger.Command.Run
import ChunkLedger.Proofs.Json.Number
import ChunkLedger.Proofs.Wire.Package

/-!
# What proving prints

A proof is printed as JSON or as text.  What is said in either way is read off the output without
looking at how it was written.

* `Report.read`  the block, the chunk and the proof, by the names of their fields
  (`readFrom_proofValue`);
* `numbersIn`    the numbers spelled out in a line; the line that follows ends with the digits of the
  root (`proofLines_eq`).
-/

namespace ChunkLedger.Command

/-! ## as JSON -/

/-- A chunk that is recorded in a block, and the proof of it. -/
structure Report where
  blockHash : Digest
  blockIndex : UInt64
  chunkIndex : UInt64
  merkleRoot : Digest
  proof : Merkle.Proof
deriving DecidableEq

namespace Report

inductive Field where
  | blockHash | blockIndex | chunkIndex | merkleRoot | proof
deriving DecidableEq

@[reducible] def Field.Content : Field → Type
  | .blockHash => Digest
  | .blockIndex => UInt64
  | .chunkIndex => UInt64
  | .merkleRoot => Digest
  | .proof => Merkle.Proof

def layout : Json.Layout Field Field.Content where
  name := "Report"
  keys := [.blockHash, .blockIndex, .chunkIndex, .merkleRoot, .proof]
  mem_keys k := by cases k <;> decide
  label
    | .blockHash => "blockHash"
    | .blockIndex => "blockIndex"
    | .chunkIndex => "chunkIndex"
    | .merkleRoot => "merkleRoot"
    | .proof => "proof"
  read
    | .blockHash => Json.readDigest
    | .blockIndex => Json.readPosition
    | .chunkIndex => Json.readPosition
    | .merkleRoot => Json.readDigest
    | .proof => Json.readList (Merkle.Step.read .text)
  absent _ := none

def read : Json.Reader Report := fun d => do
  let f ← layout.readRecord .text d
  return ⟨f .blockHash, f .blockIndex, f .chunkIndex, f .merkleRoot, f .proof⟩

/-- what a report has in a field -/
def Field.content (r : Report) : (k : Field) → k.Content
  | .blockHash => r.blockHash
  | .blockIndex => r.blockIndex
  | .chunkIndex => r.chunkIndex
  | .merkleRoot => r.merkleRoot
  | .proof => r.proof

/-- what is written of a report in a field -/
def Field.value (r : Report) : Field → Json.Value
  | .blockHash => .text r.blockHash.toHex
  | .blockIndex => .ofNat64 r.blockIndex
  | .chunkIndex => .ofNat64 r.chunkIndex
  | .merkleRoot => .text r.merkleRoot.toHex
  | .proof => .array (r.proof.map Merkle.Step.toValue)

theorem label_inj (j k : Field) (h : layout.label j = layout.label k) : j = k := by
  revert h
  cases j <;> cases k <;> decide

theorem read_value {raw : String → Json.RawText} (h : Json.Faithful raw) (r : Report) (k : Field) :
    layout.read k ((k.value r).docBy raw) = .ok (k.content r) := by
  cases k with
  | blockHash => exact Json.readDigest_docBy h r.blockHash.ofHex_toHex
  | blockIndex => exact Json.readNatural_docBy raw _ r.blockIndex
  | chunkIndex => exact Json.readNatural_docBy raw _ r.chunkIndex
  | merkleRoot => exact Json.readDigest_docBy h r.merkleRoot.ofHex_toHex
  | proof =>
    rw [Field.value, Json.Value.docBy, Json.Value.itemDocsBy_eq_map, List.map_map]
    exact Json.readList_array fun s _ => Merkle.Step.read_docBy h .text s

end Report

/-- **What is printed as JSON is read back**: the block, the chunk and the proof. -/
theorem readFrom_proofValue (b : Block) (index : UInt64) (proof : Merkle.Proof) :
    Json.readFrom Report.read (utf8 (proofValue b index proof).renderIndented)
      = .ok ⟨b.hash, b.index, index, b.merkleRoot, proof⟩ := by
  have hvalue : proofValue b index proof = .object (Report.layout.keys.map fun k =>
      (Report.layout.label k, k.value ⟨b.hash, b.index, index, b.merkleRoot, proof⟩)) := rfl
  have hwhole : (proofValue b index proof).Whole := by
    have hsteps := Json.Value.wholeItems_map Merkle.Step.whole_toValue proof
    simp [proofValue, Json.Value.Whole, Json.Value.WholeFields, Json.Value.ofNat64,
      Json.Number.Whole, hsteps]
  have hrecord := Report.layout.readRecord_docBy Report.label_inj (by decide) .text
    Json.faithful_written _ (Report.read_value Json.faithful_written
      ⟨b.hash, b.index, index, b.merkleRoot, proof⟩)
  rw [Json.readFrom_renderIndented _ hwhole, hvalue, Report.read, hrecord]
  rfl

/-! ## as text -/

/-- the numbers that are spelled out in a text, from left to right -/
def numbersIn (text : List Char) : List Nat :=
  (text.splitOnP fun c => !c.isDigit).filterMap fun digits =>
    if digits = [] then none else some (Nat.ofDigitChars 10 digits 0)

theorem numbersIn_append {cs : List Char} (h : ∀ c ∈ cs, c.isDigit = false) (rest : List Char) :
    numbersIn (cs ++ rest) = numbersIn rest := by
  induction cs with
  | nil => rfl
  | cons c cs ih =>
    have hc : c.isDigit = false := h c List.mem_cons_self
    rw [← ih fun d hd => h d (List.mem_cons_of_mem c hd), List.cons_append, numbersIn,
      List.splitOnP_cons_eq_if_modifyHead, if_pos (by rw [hc]; rfl)]
    rfl

theorem numbersIn_toDigits (n : Nat) {c : Char} (hc : c.isDigit = false) (rest : List Char) :
    numbersIn (Nat.toDigits 10 n ++ c :: rest) = n :: numbersIn rest := by
  have hdigits : ∀ d ∈ Nat.toDigits 10 n, (!d.isDigit) = false := by
    intro d hd
    rw [Json.isDigit_of_mem hd]
    rfl
  rw [numbersIn, List.splitOnP_append_cons_of_forall_mem hdigits c (by rw [hc]; rfl),
    List.filterMap_cons_some, numbersIn]
  rw [if_neg Nat.toDigits_ne_nil, Nat.ofDigitChars_ten_toDigits]

/-- a number between two texts -/
theorem numbersIn_piece {before after : String} (n : Nat) {rest : List Char}
    (hbefore : before.toList.all fun c => !c.isDigit)
    (hafter : (after.toList.head?.map Char.isDigit) = some false) :
    numbersIn (before.toList ++ (Nat.toDigits 10 n ++ (after.toList ++ rest)))
      = n :: numbersIn (after.toList ++ rest) := by
  cases hcs : after.toList with
  | nil =>
    rw [hcs] at hafter
    cases hafter
  | cons c cs =>
    rw [hcs] at hafter
    have hc : c.isDigit = false := Option.some.inj hafter
    have hskip : numbersIn ([c] ++ (cs ++ rest)) = numbersIn (cs ++ rest) :=
      numbersIn_append (by simpa using hc) _
    rw [numbersIn_append (by simpa using hbefore), List.cons_append, numbersIn_toDigits n hc,
      ← hskip]
    rfl

/-- **What is printed as text** are two lines.  The first spells out the number of the chunk, how
many there are, the index of the block and how long the proof is; the second has the root. -/
theorem proofLines_eq (b : Block) (index : UInt64) (leafCount : Nat) (proof : Merkle.Proof) :
    ∃ first root, proofLines b index leafCount proof = [first, "  Merkle root : " ++ root] ∧
      numbersIn first.toList = [index.toNat, leafCount, b.index.toNat, proof.length] ∧
        Digest.ofHex root = .ok b.merkleRoot := by
  refine ⟨_, _, rfl, ?_, b.merkleRoot.ofHex_toHex⟩
  have hend : numbersIn (" proof step(s)).".toList ++ []) = [] := by decide +kernel
  simp only [String.toList_append, Nat.toString_eq_repr, Nat.toList_repr, List.append_assoc]
  rw [← List.append_nil " proof step(s)).".toList, numbersIn_piece _ (by decide) (by decide),
    numbersIn_piece _ (by decide) (by decide), numbersIn_piece _ (by decide) (by decide),
    numbersIn_piece _ (by decide) (by decide), hend]

end ChunkLedger.Command
