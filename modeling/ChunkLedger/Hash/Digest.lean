import ChunkLedger.Hex

/-!
# Digests

A digest is a byte string of 32 bytes.  It is compared with a difficulty target as a number
(`Digest.toNat`) and written as 64 hexadecimal digits.
-/

namespace ChunkLedger

-- powers of numbers are those of core, whatever else is in scope
attribute [local instance(high)] instPowNat

def digestLength : Nat := 32

def digestBits : Nat := 256

@[ext]
structure Digest where
  bytes : Bytes
  length_bytes : bytes.length = digestLength
deriving DecidableEq

namespace Digest

def ofBytes? (bs : Bytes) : Option Digest :=
  if h : bs.length = digestLength then some ⟨bs, h⟩ else none

def zero : Digest := ⟨List.replicate digestLength 0, List.length_replicate⟩

/-- the digest as a number, first byte most significant -/
def toNat (d : Digest) : Nat := Bytes.ofBigEndian d.bytes

def toHex (d : Digest) : String := Hex.encode d.bytes

def ofHex (s : String) : Except Hex.Fault Digest :=
  match Hex.decodeExactly digestLength s with
  | .error e => .error e
  | .ok bs =>
    match ofBytes? bs with
    | some d => .ok d
    | none => .error .wrongLength

@[simp] theorem ofBytes?_bytes (d : Digest) : ofBytes? d.bytes = some d := by
  simp [ofBytes?, d.length_bytes]

theorem toNat_lt (d : Digest) : d.toNat < 2 ^ digestBits := by
  have h := Bytes.ofBigEndian_lt d.bytes
  rw [d.length_bytes] at h
  exact h

end Digest

end ChunkLedger
