import ChunkLedger.Block.Basic
import ChunkLedger.Json.Record

/-!
# Blocks as records

A block is written with its fields in the order of their declaration, digests in hexadecimal, the
timestamp in the format of RFC 3339, and an empty text where there is no parent.  The parent may
also be left out.
-/

namespace ChunkLedger.Block

inductive Field where
  | index | timestamp | merkleRoot | prevHash | hash | nonce
deriving DecidableEq

@[reducible] def Field.Content : Field → Type
  | .index => UInt64
  | .timestamp => Instant
  | .merkleRoot => Digest
  | .prevHash => Option Digest
  | .hash => Digest
  | .nonce => UInt64

def Field.label : Field → String
  | .index => "index"
  | .timestamp => "timestamp"
  | .merkleRoot => "merkleRoot"
  | .prevHash => "prevHash"
  | .hash => "hash"
  | .nonce => "nonce"

def layout : Json.Layout Field Field.Content where
  name := "Block"
  keys := [.index, .timestamp, .merkleRoot, .prevHash, .hash, .nonce]
  mem_keys k := by cases k <;> decide
  label := Field.label
  read
    | .index => Json.readWord
    | .timestamp => Json.readInstant
    | .merkleRoot => Json.readDigest
    | .prevHash => Json.readDigest?
    | .hash => Json.readDigest
    | .nonce => Json.readWord
  absent
    | .prevHash => some none
    | _ => none

def read (src : Json.Source) : Json.Reader Block := fun d => do
  let f ← layout.readRecord src d
  return ⟨f .index, f .timestamp, f .merkleRoot, f .prevHash, f .hash, f .nonce⟩

def prevText (p : Option Digest) : String := (p.map Digest.toHex).getD ""

def toValue (b : Block) : Json.Value :=
  .object [
    ("index", .ofNat64 b.index),
    ("timestamp", .text (Rfc3339.render b.timestamp)),
    ("merkleRoot", .text b.merkleRoot.toHex),
    ("prevHash", .text (prevText b.prevHash)),
    ("hash", .text b.hash.toHex),
    ("nonce", .ofNat64 b.nonce)]

end ChunkLedger.Block
