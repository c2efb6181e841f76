import ChunkLedger.Chain.Check
import ChunkLedger.Chain.File
import ChunkLedger.Chunk.File
import ChunkLedger.Merkle.Tree
import ChunkLedger.Mining.Miner

/-!
# Failures of commands

A command that fails says what it was about (`Failure.context`) and why: the causes, each one the
cause of the one before it (`Failure.causes`).  They are reported one below the other, numbered if
there are several (`Failure.report`).
-/

namespace ChunkLedger.Command

/-- Why a command failed. -/
inductive Failure where
  /-- there is something already where a new chain is to be written -/
  | chainExists (chain : Path)
  | loading (chain : Path) (f : Chain.FileFault)
  | saving (chain : Path) (f : Chain.FileFault)
  /-- the chain to upload to is not linked -/
  | extendsBroken (chain : Path) (f : Chain.Fault)
  | chunking (file : Path) (f : Chunk.FileFault)
  /-- the file to upload has no chunks -/
  | nothingToUpload (file : Path) (f : Merkle.Fault)
  | mining (f : Mining.Fault)
  | rejected (f : Chain.Fault)
  | notLinked (chain : Path) (f : Chain.Fault)
  | notVerified (chain : Path) (f : Chain.Fault)
  /-- the file to prove a chunk of has no chunks -/
  | nothingToProve (file : Path) (f : Merkle.Fault)
  | notRecorded (root : Digest)
  | proving (index : UInt64) (f : Merkle.Fault)
  | missingChunk (index : UInt64)
  /-- the proof does not lead to the root that the block has -/
  | refuted (index block : UInt64)

/-! ## what is said of them -/

def diskCauses (f : Disk.Fault) : List String := ["IO error: " ++ f.message, f.message]

def chunkCauses (f : Chunk.FileFault) : List String :=
  match f with
  | .disk d => diskCauses d
  | .size _ => [f.message]

def fileCauses (f : Chain.FileFault) : List String :=
  match f with
  | .disk d => diskCauses d
  | .format p => [f.message, p.message]
  | .noBlocks _ => [f.message]
  | .invalidPath _ => [f.message]

def chainCauses (f : Chain.Fault) : List String :=
  match f with
  | .invalidBlock b => [f.message, b.message]
  | .brokenLink _ _ => [f.message]

namespace Failure

def context : Failure → String
  | .chainExists p => "chain file " ++ p.text ++ " already exists (use --force to overwrite)"
  | .loading p _ => "failed to load chain from " ++ p.text
  | .saving p _ => "failed to write chain file " ++ p.text
  | .extendsBroken p _ => "refusing to extend broken chain " ++ p.text
  | .chunking p _ => "failed to chunk " ++ p.text
  | .nothingToUpload p _ => p.text ++ " is empty, nothing to upload"
  | .mining _ => "mining failed"
  | .rejected _ => "mined block was rejected by the chain"
  | .notLinked p _ => "chain " ++ p.text ++ " is not linked"
  | .notVerified p _ => "chain " ++ p.text ++ " failed verification"
  | .nothingToProve p _ => p.text ++ " is empty"
  | .notRecorded r =>
    "no block records merkle root " ++ r.toHex ++ " (was a different chunk size used?)"
  | .proving i _ => "cannot prove chunk " ++ toString i.toNat
  | .missingChunk i => "chunk " ++ toString i.toNat ++ " does not exist"
  | .refuted i b =>
    "chunk " ++ toString i.toNat ++ " does not verify against block " ++ toString b.toNat

def causes : Failure → List String
  | .loading _ f => fileCauses f
  | .saving _ f => fileCauses f
  | .extendsBroken _ f => chainCauses f
  | .chunking _ f => chunkCauses f
  | .nothingToUpload _ f => [f.message]
  | .mining f => [f.message]
  | .rejected f => chainCauses f
  | .notLinked _ f => chainCauses f
  | .notVerified _ f => chainCauses f
  | .nothingToProve _ f => [f.message]
  | .proving _ f => [f.message]
  | _ => []

/-- a cause under its heading; later lines of the same cause stand below its first one -/
def cause (heading : String) (text : String) : List Char :=
  '\n' :: heading.toList ++ text.toList.flatMap fun c =>
    if c = '\n' then '\n' :: List.replicate heading.length ' ' else [c]

def heading (i : Nat) : String :=
  let n := toString i
  String.ofList (List.replicate (5 - n.length) ' ') ++ n ++ ": "

def causeLines : List String → List Char
  | [] => []
  | [c] => cause "    " c
  | cs => (cs.zipIdx.map fun p => cause (heading p.2) p.1).flatten

def report (f : Failure) : String :=
  "Error: " ++ f.context ++
    (if f.causes = [] then "" else "\n\nCaused by:" ++ String.ofList (causeLines f.causes)) ++ "\n"

end Failure

end ChunkLedger.Command
