import ChunkLedger.Block.Record
import ChunkLedger.Wire.Package

/-!
# Payloads

What a message carries, by the kind of the message: a new block, a request for chunks of a file, the
chunks, or a request for the whole chain.
-/

namespace ChunkLedger.Wire

inductive Kind where
  | newBlock
  | sendChunks
  | requestChunks
  | requestBlockchain
deriving DecidableEq

namespace Kind

def name : Kind → String
  | .newBlock => "NewBlock"
  | .sendChunks => "SendChunks"
  | .requestChunks => "RequestChunks"
  | .requestBlockchain => "RequestBlockchain"

def all : List Kind := [.newBlock, .sendChunks, .requestChunks, .requestBlockchain]

def read : Json.Reader Kind := Json.readVariant (all.map fun k => (k.name, k))

theorem mem_all (k : Kind) : k ∈ all := by cases k <;> decide

end Kind

inductive Payload where
  | newBlock (block : Block)
  | sendChunks (chunks : List Package)
  | requestChunks (merkleRoot : Digest) (indices : List UInt64)
  | requestBlockchain
deriving DecidableEq

namespace Payload

def kind : Payload → Kind
  | .newBlock _ => .newBlock
  | .sendChunks _ => .sendChunks
  | .requestChunks _ _ => .requestChunks
  | .requestBlockchain => .requestBlockchain

def toValue : Payload → Json.Value
  | .newBlock b => .object [("block", b.toValue)]
  | .sendChunks ps => .object [("chunks", .array (ps.map Package.toValue))]
  | .requestChunks root is =>
    .object [("merkleRoot", .text root.toHex), ("indices", .array (is.map Json.Value.ofNat64))]
  | .requestBlockchain => .object []

/-! ## as records -/

/-- a record with a single field -/
def soleField {α : Type} (name label : String) (r : Json.Reader α) :
    Json.Layout Unit (fun _ => α) where
  name := name
  keys := [()]
  mem_keys k := by cases k; decide
  label _ := label
  read _ := r
  absent _ := none

def noField (name : String) : Json.Layout Empty (fun _ => Unit) where
  name := name
  keys := []
  mem_keys k := nomatch k
  label k := nomatch k
  read k := nomatch k
  absent k := nomatch k

inductive RequestField where
  | merkleRoot | indices
deriving DecidableEq

@[reducible] def RequestField.Content : RequestField → Type
  | .merkleRoot => Digest
  | .indices => List UInt64

def requestLayout : Json.Layout RequestField RequestField.Content where
  name := "RequestChunks"
  keys := [.merkleRoot, .indices]
  mem_keys k := by cases k <;> decide
  label
    | .merkleRoot => "merkleRoot"
    | .indices => "indices"
  read
    | .merkleRoot => Json.readDigest
    | .indices => Json.readList Json.readPosition
  absent _ := none

def read (src : Json.Source) : Kind → Json.Reader Payload
  | .newBlock => fun d => do
    let f ← (soleField "NewBlock" "block" (Block.read src)).readRecord src d
    return .newBlock (f ())
  | .sendChunks => fun d => do
    let f ← (soleField "SendChunks" "chunks" (Json.readList (Package.read src))).readRecord src d
    return .sendChunks (f ())
  | .requestChunks => fun d => do
    let f ← requestLayout.readRecord src d
    return .requestChunks (f .merkleRoot) (f .indices)
  | .requestBlockchain => fun d => do
    let _ ← (noField "RequestBlockchain").readRecord src d
    return .requestBlockchain

end Payload

end ChunkLedger.Wire
