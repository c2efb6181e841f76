import ChunkLedger.Defaults
import ChunkLedger.Disk.Path

/-!
# Arguments of the command line

Each command knows some arguments.  All but the file are named, `--name value` or `--name=value`;
a few have a letter too.  Most can also come from the environment.  The value of an argument has a
type of its own (`Argument.Value`) and is read from its text (`Argument.read`).
-/

namespace ChunkLedger.Command

/-- What the command line can be asked to do. -/
inductive Verb where
  | init
  | upload
  | validate
  | table
  | prove
  | version
deriving DecidableEq, Repr

namespace Verb

def name : Verb → String
  | .init => "init"
  | .upload => "upload"
  | .validate => "validate"
  | .table => "show"
  | .prove => "prove"
  | .version => "version"

def all : List Verb := [.init, .upload, .validate, .table, .prove, .version]

def named? (s : String) : Option Verb := all.find? (·.name = s)

theorem mem_all (v : Verb) : v ∈ all := by cases v <;> decide

end Verb

/-- Why a command line is not carried out. -/
inductive Usage where
  | help
  | version (verb : Option Verb)
  /-- there is nothing on the command line -/
  | nothing
  /-- there are arguments but no command -/
  | noCommand
  | unknownCommand
  | unknownArgument
  /-- an argument without its value, or with an empty path -/
  | noValue
  | badValue
  | unwantedValue
  | repeated
  | missingArgument
deriving DecidableEq, Repr

def Usage.exitCode : Usage → Nat
  | .help => 0
  | .version _ => 0
  | _ => 2

/-! ## numbers -/

/-- the number that some digits spell; there must be one -/
def digits? (cs : List Char) : Option Nat :=
  if cs ≠ [] ∧ cs.all Char.isDigit then some (cs.foldl (fun n c => n * 10 + (c.toNat - 48)) 0)
  else none

/-- digits, perhaps after a plus sign -/
def unsigned? (s : String) : Option Nat :=
  match s.toList with
  | '+' :: cs => digits? cs
  | cs => digits? cs

/-- digits, perhaps after a sign -/
def signed? (s : String) : Option Int :=
  match s.toList with
  | '-' :: cs => (digits? cs).map fun n => -(n : Int)
  | _ => (unsigned? s).map fun n => (n : Int)

def readUnsigned (low high : Nat) (s : String) : Except Usage Nat :=
  match unsigned? s with
  | some n => if low ≤ n ∧ n ≤ high then .ok n else .error .badValue
  | none => .error .badValue

/-- a number in a range, which may be written with a minus sign -/
def readSigned (low high : Nat) (s : String) : Except Usage Nat :=
  match signed? s with
  | some i => if (low : Int) ≤ i ∧ i ≤ high then .ok i.toNat else .error .badValue
  | none => .error .badValue

def readPath (s : String) : Except Usage Path := if s = "" then .error .noValue else .ok ⟨s⟩

/-! ## arguments -/

inductive Argument where
  /-- the file to upload or to prove; the only argument without a name -/
  | file
  | index
  | chain
  | chunkSizeMb
  | workers
  | retries
  | difficulty
  | force
  | json
  | logFormat
  | help
  | version
deriving DecidableEq, Repr

namespace Argument

@[reducible] def Value : Argument → Type
  | .file => Path
  | .index => UInt64
  | .chain => Path
  | .chunkSizeMb => UInt64
  | .workers => Nat
  | .retries => Nat
  | .difficulty => Nat
  | .logFormat => String
  | .force => Unit
  | .json => Unit
  | .help => Unit
  | .version => Unit

def name? : Argument → Option String
  | .file => none
  | .index => some "index"
  | .chain => some "chain"
  | .chunkSizeMb => some "chunk-size-mb"
  | .workers => some "workers"
  | .retries => some "retries"
  | .difficulty => some "difficulty"
  | .force => some "force"
  | .json => some "json"
  | .logFormat => some "log-format"
  | .help => some "help"
  | .version => some "version"

def letter? : Argument → Option Char
  | .index => some 'i'
  | .workers => some 'w'
  | .retries => some 'r'
  | .difficulty => some 'd'
  | .help => some 'h'
  | .version => some 'V'
  | _ => none

def takesValue : Argument → Bool
  | .force => false
  | .json => false
  | .help => false
  | .version => false
  | _ => true

/-- where in the environment the value can come from -/
def environmentName? : Argument → Option String
  | .chain => some "CHAINSTORE_CHAIN"
  | .chunkSizeMb => some "CHAINSTORE_CHUNK_SIZE_MB"
  | .workers => some "CHAINSTORE_WORKERS"
  | .retries => some "CHAINSTORE_RETRIES"
  | .difficulty => some "CHAINSTORE_DIFFICULTY"
  | .logFormat => some "CHAINSTORE_LOG_FORMAT"
  | _ => none

def read : (a : Argument) → String → Except Usage a.Value
  | .file, s => readPath s
  | .index, s => (readUnsigned 0 (UInt64.size - 1) s).map UInt64.ofNat
  | .chain, s => readPath s
  | .chunkSizeMb, s => (readUnsigned 1 (UInt64.size - 1) s).map UInt64.ofNat
  | .workers, s => readUnsigned 1 Defaults.maxWorkers s
  | .retries, s => readSigned 1 Defaults.maxRetries s
  | .difficulty, s => readSigned 0 Defaults.maxDifficulty s
  | .logFormat, s => .ok s
  | .force, _ => .ok ()
  | .json, _ => .ok ()
  | .help, _ => .ok ()
  | .version, _ => .ok ()

end Argument

def arguments : Option Verb → List Argument
  | none => [.logFormat, .help, .version]
  | some .init => [.chain, .force, .logFormat, .help, .version]
  | some .upload =>
    [.file, .chain, .chunkSizeMb, .workers, .retries, .difficulty, .logFormat, .help, .version]
  | some .validate => [.chain, .difficulty, .logFormat, .help, .version]
  | some .table => [.chain, .logFormat, .help, .version]
  | some .prove => [.file, .index, .chain, .chunkSizeMb, .json, .logFormat, .help, .version]
  | some .version => [.logFormat, .help, .version]

theorem readUnsigned_range {low high n : Nat} {s : String} (h : readUnsigned low high s = .ok n) :
    low ≤ n ∧ n ≤ high := by
  unfold readUnsigned at h
  split at h
  · split at h
    · cases h; assumption
    · cases h
  · cases h

end ChunkLedger.Command
