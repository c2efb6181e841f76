import ChunkLedger.Command.Failure
import ChunkLedger.Command.Line
import ChunkLedger.Merkle.Proof
import ChunkLedger.Wire.Package

/-!
# Carrying out commands

A command works on a host, which gives it files, the time and a miner (`Host`), and ends with the
lines of its output or a failure.  `World` is a host without any machine behind it.

* `runInit`      writes a chain that has only its first block;
* `runUpload`    records a file in a new block;
* `runValidate`  verifies a chain;
* `runTable`     prints the blocks of a chain;
* `runProve`     proves that a chunk of a file is recorded on a chain;
* `program`      reads a command line and does what it says.
-/

namespace ChunkLedger.Command

/-- How mining ended, and how long it took in nanoseconds. -/
structure Timed where
  block : Block
  result : Except Mining.Fault Mining.Outcome
  nanos : Nat

/-- What a command can ask for. -/
class Host (m : Type → Type) where
  has : Path → m Bool
  read : Path → m (Except Disk.Fault Bytes)
  /-- carries out steps up to the first that fails -/
  perform : List Disk.Step → m (Except Disk.Fault Unit)
  now : m Instant
  mine : Mining.Config → Block → m Timed

/-! ## text -/

def spaces (n : Nat) : String := String.ofList (List.replicate n ' ')

def padLeft (width : Nat) (s : String) : String := spaces (width - s.length) ++ s

def padRight (width : Nat) (s : String) : String := s ++ spaces (width - s.length)

/-- a row of the table of blocks -/
def row (index timestamp nonce hash root : String) : String :=
  padLeft 6 index ++ "  " ++ padRight 24 timestamp ++ "  " ++ padLeft 12 nonce ++ "  " ++
    padRight 16 hash ++ "  " ++ root

/-- the row of a block, with the first sixteen digits of its digest -/
def blockRow (b : Block) : String :=
  row (toString b.index.toNat) (Rfc3339.renderMillis b.timestamp) (toString b.nonce.toNat)
    (String.ofList (b.hash.toHex.toList.take 16)) b.merkleRoot.toHex

def hundredths (n : Nat) : String :=
  toString (n / 100) ++ "." ++ toString (n / 10 % 10) ++ toString (n % 10)

/-- a time in the largest unit of which it is one, with two places, a half rounded up -/
def duration (nanos : Nat) : String :=
  if 1000000000 ≤ nanos then hundredths ((nanos + 5000000) / 10000000) ++ "s"
  else if 1000000 ≤ nanos then hundredths ((nanos + 5000) / 10000) ++ "ms"
  else if 1000 ≤ nanos then hundredths ((nanos + 5) / 10) ++ "µs"
  else hundredths (nanos * 100) ++ "ns"

/-! ## commands -/

/-- A computation that may fail. -/
abbrev Action (m : Type → Type) (α : Type) := ExceptT Failure m α

section

variable {m : Type → Type} [Monad m] [Host m]

/-- the result of something, whose fault is a cause of failure -/
def orFail {ε α : Type} (failure : ε → Failure) : Except ε α → Action m α
  | .ok a => pure a
  | .error e => throw (failure e)

def has (p : Path) : Action m Bool := ExceptT.lift (Host.has p)

def readFile (p : Path) : Action m (Except Disk.Fault Bytes) := ExceptT.lift (Host.read p)

def loadChain (path : Path) : Action m Chain := do
  orFail (.loading path) (Chain.ofFile path (← readFile path))

/-- the chain at `path`; if nothing is there, one that has only its first block -/
def loadOrStart (path : Path) : Action m Chain := do
  if ← has path then loadChain path else return Chain.initial

def saveChain (path : Path) (c : Chain) : Action m Unit := do
  let steps ← orFail (.saving path) (Chain.saveSteps path [utf8 c.toText])
  let done ← ExceptT.lift (Host.perform steps)
  orFail (.saving path ∘ .disk) done

def readChunks (file : Path) (chunkSizeMb : UInt64) : Action m (List Bytes) := do
  let size := (Chunk.sizeOfMb chunkSizeMb).toNat
  orFail (.chunking file) (Chunk.ofFile size (← readFile file))

def runInit (chain : Path) (force : Bool) : Action m (List String) := do
  if (← has chain) && !force then throw (.chainExists chain)
  saveChain chain Chain.initial
  return [
    "Chain initialized.",
    "  Chain file : " ++ chain.text,
    "  Genesis    : " ++ Block.genesis.hash.toHex]

def uploadConfig (workers retries difficulty : Nat) : Mining.Config :=
  { Mining.Config.standard with
    difficulty := difficulty, workers := workers, maxRetries := retries }

def runUpload (file chain : Path) (chunkSizeMb : UInt64) (workers retries difficulty : Nat) :
    Action m (List String) := do
  let c ← loadOrStart chain
  orFail (.extendsBroken chain) c.checkLinks
  let chunks ← readChunks file chunkSizeMb
  let tree ← orFail (.nothingToUpload file) (Merkle.Tree.ofChunks chunks)
  let now ← ExceptT.lift (Host.now (m := m))
  let draft := c.successor tree.root now
  let mined ← ExceptT.lift (Host.mine (uploadConfig workers retries difficulty) draft)
  let outcome ← orFail .mining mined.result
  let b := mined.block
  let c ← orFail .rejected (c.add b difficulty)
  saveChain chain c
  return [
    "Block " ++ toString b.index.toNat ++ " appended.",
    "  Hash        : " ++ b.hash.toHex,
    "  Merkle root : " ++ b.merkleRoot.toHex,
    "  Nonce       : " ++ toString b.nonce.toNat,
    "  Mined in    : " ++ duration mined.nanos ++ " (" ++ toString outcome.attempts ++
      " attempt(s), worker " ++ toString outcome.worker ++ ")"]

def runValidate (chain : Path) (difficulty : Nat) : Action m (List String) := do
  let c ← loadChain chain
  orFail (.notLinked chain) c.checkLinks
  orFail (.notVerified chain) (c.verify difficulty)
  return ["Chain valid: " ++ toString c.length ++ " block(s), difficulty " ++
    toString difficulty ++ ", tip " ++ c.tip.hash.toHex]

def runTable (chain : Path) : Action m (List String) := do
  let c ← loadChain chain
  return row "INDEX" "TIMESTAMP" "NONCE" "HASH" "MERKLE ROOT" :: c.blocks.map blockRow

def proofValue (b : Block) (index : UInt64) (proof : Merkle.Proof) : Json.Value :=
  .object [
    ("blockHash", .text b.hash.toHex),
    ("blockIndex", .ofNat64 b.index),
    ("chunkIndex", .ofNat64 index),
    ("merkleRoot", .text b.merkleRoot.toHex),
    ("proof", .array (proof.map fun s => s.toValue))]

def proofLines (b : Block) (index : UInt64) (leafCount : Nat) (proof : Merkle.Proof) :
    List String := [
  "Chunk " ++ toString index.toNat ++ " of " ++ toString leafCount ++ " verified against block " ++
    toString b.index.toNat ++ " (" ++ toString proof.length ++ " proof step(s)).",
  "  Merkle root : " ++ b.merkleRoot.toHex]

/-- the newest block that records the file with these chunks, and the proof for one of them; the
proof has been checked -/
def proveChunk (c : Chain) (tree : Merkle.Tree) (chunks : List Bytes) (index : UInt64) :
    Except Failure (Block × Merkle.Proof) :=
  match c.findRoot? tree.root.bytes with
  | none => .error (.notRecorded tree.root)
  | some b =>
    match tree.prove index.toNat with
    | .error f => .error (.proving index f)
    | .ok proof =>
      match chunks[index.toNat]? with
      | none => .error (.missingChunk index)
      | some chunk =>
        if Merkle.verify chunk b.merkleRoot proof then .ok (b, proof)
        else .error (.refuted index b.index)

def runProve (file : Path) (index : UInt64) (chain : Path) (chunkSizeMb : UInt64) (json : Bool) :
    Action m (List String) := do
  let c ← loadChain chain
  let chunks ← readChunks file chunkSizeMb
  let tree ← orFail (.nothingToProve file) (Merkle.Tree.ofChunks chunks)
  let (b, proof) ← orFail id (proveChunk c tree chunks index)
  if json then return [(proofValue b index proof).renderIndented]
  else return proofLines b index tree.leafCount proof

def versionLines : List String := [
  "chainstore-node " ++ Defaults.protocolVersion,
  "protocol        " ++ Defaults.protocolId ++ " " ++ Defaults.protocolVersion]

def Request.run : Request → Action m (List String)
  | .init chain force => runInit chain force
  | .upload file chain size workers retries difficulty =>
    runUpload file chain size workers retries difficulty
  | .validate chain difficulty => runValidate chain difficulty
  | .table chain => runTable chain
  | .prove file index chain size json => runProve file index chain size json
  | .version => return versionLines

/-! ## the whole program -/

/-- What a run leaves on its outputs, and the code it ends with. -/
structure Ending where
  code : Nat
  output : String
  errors : String
deriving DecidableEq, Repr

def lines (ls : List String) : String := String.join (ls.map (· ++ "\n"))

/-- what the program says about itself, or about one of its commands -/
def versionText (verb : Option Verb) : String :=
  "chainstore-node" ++ ((verb.map fun v => "-" ++ v.name).getD "") ++ " " ++
    Defaults.protocolVersion

def usageLines : List String := [
  "Usage: chainstore-node [--log-format pretty|json] COMMAND",
  "",
  "Commands:",
  "  init      [--chain PATH] [--force]",
  "  upload    FILE [--chain PATH] [--chunk-size-mb N] [-w N] [-r N] [-d N]",
  "  validate  [--chain PATH] [-d N]",
  "  show      [--chain PATH]",
  "  prove     FILE -i N [--chain PATH] [--chunk-size-mb N] [--json]",
  "  version"]

def Usage.ending (u : Usage) : Ending :=
  match u with
  | .version v => ⟨u.exitCode, lines [versionText v], ""⟩
  | .help => ⟨u.exitCode, lines usageLines, ""⟩
  | u => ⟨u.exitCode, "", lines usageLines⟩

def program (env : String → Option String) (args : List String) : m Ending :=
  match parse env args with
  | .error u => pure u.ending
  | .ok i => do
    match ← (i.request.run : Action m (List String)).run with
    | .ok ls => return ⟨0, lines ls, ""⟩
    | .error f => return ⟨1, "", f.report⟩

end

/-! ## a world -/

/-- A disk, and what happens around a miner. -/
structure World where
  disk : Disk
  tokens : Mining.Tokens
  surroundings : Mining.Surroundings
  /-- the time, as long as nothing is mined -/
  time : Instant
  /-- where the disk refuses to go on, if it does -/
  refusal : Option Disk.Refusal

instance : Host (StateM World) where
  has p := do return (← get).disk.has p
  read p := do return (← get).disk.read p
  perform steps := fun w =>
    let (disk, r) := w.disk.runUntil w.refusal steps
    (r, { w with disk })
  now := do return (← get).time
  mine config b := fun w =>
    let m := Mining.Miner.mineOnce config w.surroundings w.tokens b
    (⟨m.block, m.result, 0⟩, { w with tokens := m.tokens })

end ChunkLedger.Command
