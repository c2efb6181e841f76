import ChunkLedger.Chunk
import ChunkLedger.Disk.Basic

/-!
# Chunks and files

A file is taken apart into chunks (`Chunk.load`) and put together from them (`Chunk.buildSteps`).
A size of zero is refused before the file is looked at.
-/

namespace ChunkLedger.Chunk

inductive FileFault where
  | disk (f : Disk.Fault)
  | size (f : Fault)
deriving DecidableEq, Repr

def FileFault.message : FileFault → String
  | .disk f => "IO error: " ++ f.message
  | .size f => f.message

/-- the chunks of a file, given what reading it gives -/
def ofFile (size : Nat) (content : Except Disk.Fault Bytes) : Except FileFault (List Bytes) :=
  if size = 0 then .error (.size .zeroSize)
  else
    match content with
    | .ok bs => .ok (readPieces size bs)
    | .error f => .error (.disk f)

def load (size : Nat) (p : Path) (d : Disk) : Except FileFault (List Bytes) :=
  ofFile size (d.read p)

/-- the steps that write chunks to the file at `p`, whatever it held before -/
def buildSteps (p : Path) (chunks : List Bytes) : List Disk.Step :=
  .create p :: chunks.map (.append p)

theorem ofFile_zero (content : Except Disk.Fault Bytes) :
    ofFile 0 content = .error (.size .zeroSize) := rfl

theorem ofFile_ok {size : Nat} (h : size ≠ 0) (bs : Bytes) :
    ofFile size (.ok bs) = .ok (readPieces size bs) := by
  simp [ofFile, h]

end ChunkLedger.Chunk
