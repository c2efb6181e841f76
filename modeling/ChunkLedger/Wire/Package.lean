import ChunkLedger.Json.Record
import ChunkLedger.Merkle.Proof

/-!
# Chunk packages

A chunk sent to a peer, with the proof that it is a leaf under a root that the peer knows.
-/

namespace ChunkLedger

namespace Merkle.Step

inductive Field where
  | hash | isLeft
deriving DecidableEq

@[reducible] def Field.Content : Field → Type
  | .hash => Digest
  | .isLeft => Bool

def layout : Json.Layout Field Field.Content where
  name := "MerkleProofStep"
  keys := [.hash, .isLeft]
  mem_keys k := by cases k <;> decide
  label
    | .hash => "hash"
    | .isLeft => "isLeft"
  read
    | .hash => Json.readDigest
    | .isLeft => Json.readBool
  absent _ := none

def read (src : Json.Source) : Json.Reader Step := fun d => do
  let f ← layout.readRecord src d
  return ⟨f .hash, f .isLeft⟩

def toValue (s : Step) : Json.Value :=
  .object [("hash", .text s.hash.toHex), ("isLeft", .bool s.isLeft)]

end Merkle.Step

namespace Wire

structure Package where
  merkleRoot : Digest
  index : UInt64
  data : Bytes
  proof : Merkle.Proof
deriving DecidableEq

namespace Package

inductive Fault where
  | missingChunk (index : Nat)
  | merkle (f : Merkle.Fault)
deriving DecidableEq

def Fault.message : Fault → String
  | .missingChunk i => "chunk " ++ toString i ++ " does not exist"
  | .merkle f => f.message

/-- packs chunk `index` of `chunks` with its proof in `tree` -/
def ofTree (tree : Merkle.Tree) (chunks : List Bytes) (index : UInt64) : Except Fault Package :=
  match chunks[index.toNat]? with
  | none => .error (.missingChunk index.toNat)
  | some data =>
    match tree.prove index.toNat with
    | .error f => .error (.merkle f)
    | .ok proof => .ok ⟨tree.root, index, data, proof⟩

/-- the data is a chunk under the root that the package names -/
def verify (p : Package) : Bool := Merkle.verify p.data p.merkleRoot p.proof

/-! ## as a record -/

inductive Field where
  | merkleRoot | index | data | proof
deriving DecidableEq

@[reducible] def Field.Content : Field → Type
  | .merkleRoot => Digest
  | .index => UInt64
  | .data => Bytes
  | .proof => Merkle.Proof

def layout (src : Json.Source) : Json.Layout Field Field.Content where
  name := "ChunkPackage"
  keys := [.merkleRoot, .index, .data, .proof]
  mem_keys k := by cases k <;> decide
  label
    | .merkleRoot => "merkleRoot"
    | .index => "index"
    | .data => "data"
    | .proof => "proof"
  read
    | .merkleRoot => Json.readDigest
    | .index => Json.readPosition
    | .data => Json.readBytes
    | .proof => Json.readList (Merkle.Step.read src)
  absent _ := none

def read (src : Json.Source) : Json.Reader Package := fun d => do
  let f ← (layout src).readRecord src d
  return ⟨f .merkleRoot, f .index, f .data, f .proof⟩

def toValue (p : Package) : Json.Value :=
  .object [
    ("merkleRoot", .text p.merkleRoot.toHex),
    ("index", .ofNat64 p.index),
    ("data", .text (Hex.encode p.data)),
    ("proof", .array (p.proof.map Merkle.Step.toValue))]

end Package

end Wire

end ChunkLedger
