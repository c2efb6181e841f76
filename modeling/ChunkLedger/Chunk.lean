import ChunkLedger.Bytes

/-!
# Chunks

A file is split into chunks of a fixed size.  Only the last chunk may be shorter, and none is
empty: an empty file has no chunks, and a whole multiple of the size has no short tail.

* `Chunk.split`       a byte string in memory, cut at the multiples of the size;
* `Chunk.readPieces`  a byte string, read piece by piece until a read gives nothing, as a file is;
* `Chunk.join`        the bytes that a list of chunks came from.
-/

namespace ChunkLedger.Chunk

-- powers of numbers are those of core, whatever else is in scope
attribute [local instance(high)] instPowNat

def bytesPerMb : Nat := 1024 * 1024

/-- a size in mebibytes as a size in bytes, held at the largest 64-bit number -/
def sizeOfMb (mb : UInt64) : UInt64 :=
  UInt64.ofNat (min (mb.toNat * bytesPerMb) (UInt64.size - 1))

theorem toNat_sizeOfMb (mb : UInt64) :
    (sizeOfMb mb).toNat = min (mb.toNat * 2 ^ (20 : Nat)) (2 ^ (64 : Nat) - 1) := by
  have hlimit : UInt64.size = 2 ^ 64 := rfl
  rw [sizeOfMb, UInt64.toNat_ofNat', bytesPerMb]
  omega

/-- The chunk size is zero. -/
inductive Fault where
  | zeroSize
deriving DecidableEq, Repr

def Fault.message : Fault → String
  | .zeroSize => "chunk size must be greater than zero"

/-! ## in memory -/

/-- the first `n` pieces of `size` bytes -/
def pieces (size : Nat) : (n : Nat) → Bytes → List Bytes
  | 0, _ => []
  | n+1, bs => bs.take size :: pieces size n (bs.drop size)

def split (size : Nat) (bs : Bytes) : Except Fault (List Bytes) :=
  if size = 0 then .error .zeroSize
  else .ok (pieces size ((bs.length + (size - 1)) / size) bs)

/-! ## piece by piece -/

/-- reads of `size` bytes, until one gives nothing -/
def readPieces (size : Nat) (rest : Bytes) : List Bytes :=
  let piece := rest.take size
  if _h : piece = [] then [] else piece :: readPieces size (rest.drop size)
termination_by rest.length
decreasing_by
  have h1 : (rest.take size).length ≠ 0 := fun e => _h (List.eq_nil_of_length_eq_zero e)
  rw [List.length_take] at h1
  rw [List.length_drop]
  omega

/-! ## back together -/

def join (chunks : List Bytes) : Bytes := chunks.flatten

@[simp] theorem length_pieces (size n : Nat) (bs : Bytes) : (pieces size n bs).length = n := by
  induction n generalizing bs with
  | zero => rfl
  | succ n ih => rw [pieces, List.length_cons, ih]

theorem split_zero (bs : Bytes) : split 0 bs = .error .zeroSize := rfl

@[simp] theorem join_nil : join [] = [] := rfl
@[simp] theorem join_cons (c : Bytes) (cs : List Bytes) : join (c :: cs) = c ++ join cs := by
  simp [join]

theorem readPieces_nil (size : Nat) : readPieces size [] = [] := by
  rw [readPieces]; simp

theorem readPieces_of_ne_nil {size : Nat} {bs : Bytes} (hs : size ≠ 0) (h : bs ≠ []) :
    readPieces size bs = bs.take size :: readPieces size (bs.drop size) := by
  have hne : bs.take size ≠ [] := by
    intro e
    rcases List.take_eq_nil_iff.mp e with h' | h'
    · exact hs h'
    · exact h h'
  rw [readPieces]
  simp [hne]

end ChunkLedger.Chunk
