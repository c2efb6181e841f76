import ChunkLedger.Command.Argument

/-!
# Command lines

A command line is a command and its arguments; the log format may also stand before the command.
Arguments are read from left to right.  The value of an argument is only looked at when the next
argument is recognized, or at the end (`Reading.settle`): an unknown argument is reported before a
bad value of the argument to its left.

What is not on the command line comes from the environment, and what is in neither has a default.
-/

namespace ChunkLedger.Command

abbrev Found := (a : Argument) → Option a.Value

structure Reading where
  found : Found
  /-- an argument, and its text if that has been read, whose value has not been looked at yet -/
  pending : Option (Argument × Option String)

namespace Reading

def start : Reading := ⟨fun _ => none, none⟩

/-- a value has to follow -/
def isAwaiting (r : Reading) : Bool :=
  match r.pending with
  | some (_, none) => true
  | _ => false

/-- takes the text `s` as the value of `a` -/
def accept (r : Reading) (a : Argument) (s : String) : Except Usage Reading :=
  if (r.found a).isSome then .error .repeated
  else do
    let v ← a.read s
    return { r with found := fun b => if h : b = a then some (h ▸ v) else r.found b }

/-- looks at the value that is pending -/
def settle (r : Reading) : Except Usage Reading :=
  match r.pending with
  | none => .ok r
  | some (_, none) => .error .noValue
  | some (a, some s) => accept { r with pending := none } a s

/-- an argument without a value -/
def flag (level : Option Verb) (r : Reading) (a : Argument) : Except Usage Reading := do
  let r ← r.settle
  match a with
  | .help => throw .help
  | .version => throw (.version level)
  | a => r.accept a ""

/-- an argument that takes a value, which may be attached to it -/
def option (r : Reading) (a : Argument) (attached : Option String) : Except Usage Reading := do
  let r ← r.settle
  match attached with
  | some s => r.accept a s
  | none => return { r with pending := some (a, none) }

def splitEquals (cs : List Char) : String × Option String :=
  (String.ofList (cs.takeWhile (· ≠ '=')),
    match cs.dropWhile (· ≠ '=') with
    | [] => none
    | _ :: v => some (String.ofList v))

/-- what follows two dashes -/
def long (level : Option Verb) (r : Reading) (cs : List Char) : Except Usage Reading :=
  let (name, attached) := splitEquals cs
  match (arguments level).find? (·.name? = some name) with
  | none => .error .unknownArgument
  | some a =>
    if a.takesValue then r.option a attached
    else if attached.isSome then .error .unwantedValue
    else flag level r a

/-- what follows one dash: letters, the last of which may have its value attached -/
def letters (level : Option Verb) : Reading → List Char → Except Usage Reading
  | r, [] => .ok r
  | r, c :: cs =>
    match (arguments level).find? (·.letter? = some c) with
    | none => .error .unknownArgument
    | some a =>
      if a.takesValue then
        match cs with
        | [] => r.option a none
        | '=' :: v => r.option a (some (String.ofList v))
        | v => r.option a (some (String.ofList v))
      else do
        let r ← flag level r a
        letters level r cs

/-- an argument without a name; `literal` if it comes after two lone dashes -/
def positional (level : Option Verb) (r : Reading) (literal : Bool) (s : String) :
    Except Usage Reading :=
  let isTaken := (r.found .file).isSome || r.pending.any (·.1 = .file)
  if .file ∈ arguments level ∧ ¬ isTaken then do
    let r ← r.settle
    return { r with pending := some (.file, some s) }
  else if level = none ∧ ¬ (literal ∧ ((Verb.named? s).isSome ∨ s = "help")) then
    .error .unknownCommand
  else .error .unknownArgument

/-- any argument but a command and two lone dashes -/
def argument (level : Option Verb) (r : Reading) (s : String) : Except Usage Reading :=
  match s.toList with
  | '-' :: '-' :: cs => r.long level cs
  | '-' :: c :: cs => letters level r (c :: cs)
  | _ =>
    match r.pending with
    | some (a, none) => .ok { r with pending := some (a, some s) }
    | _ => r.positional level false s

/-- what `help` with these arguments says -/
def helpOn : List String → Usage
  | [] => .help
  | [s] => if (Verb.named? s).isSome ∨ s = "help" then .help else .unknownCommand
  | _ => .unknownCommand

/-- reads arguments; before a command has been found, up to the command -/
def read (level : Option Verb) : Reading → (literal : Bool) → List String →
    Except Usage (Reading × Option (Verb × List String))
  | r, _, [] => .ok (r, none)
  | r, true, s :: rest => do
    let r ← r.positional level true s
    read level r true rest
  | r, false, s :: rest =>
    let mayCommand : Bool := level = none && !r.isAwaiting
    if mayCommand && s = "help" then .error (helpOn rest)
    else
      match if mayCommand then Verb.named? s else none with
      | some v => .ok (r, some (v, rest))
      | none =>
        if s = "--" then read level r true rest
        else do
          let r ← r.argument level s
          read level r false rest

def fromEnvironment (env : String → Option String) : List Argument → Reading →
    Except Usage Reading
  | [], r => .ok r
  | a :: as, r =>
    match r.found a, a.environmentName?.bind env with
    | none, some s => do
      let r ← r.accept a s
      fromEnvironment env as r
    | _, _ => fromEnvironment env as r

end Reading

/-! ## requests -/

inductive Request where
  | init (chain : Path) (force : Bool)
  | upload (file chain : Path) (chunkSizeMb : UInt64) (workers retries difficulty : Nat)
  | validate (chain : Path) (difficulty : Nat)
  | table (chain : Path)
  | prove (file : Path) (index : UInt64) (chain : Path) (chunkSizeMb : UInt64) (json : Bool)
  | version
deriving DecidableEq, Repr

structure Invocation where
  logFormat : String
  request : Request
deriving DecidableEq, Repr

def required {α : Type} : Option α → Except Usage α
  | some a => .ok a
  | none => .error .missingArgument

/-- the request that a verb and the values found for it make, with defaults for the rest -/
def Request.make (f : Found) : Verb → Except Usage Request :=
  let chain := (f .chain).getD ⟨Defaults.chainPath⟩
  let chunkSizeMb := (f .chunkSizeMb).getD (UInt64.ofNat Defaults.chunkSizeMb)
  let difficulty := (f .difficulty).getD Defaults.difficulty
  fun
  | .init => .ok (.init chain (f .force).isSome)
  | .upload => do
    let file ← required (f .file)
    return .upload file chain chunkSizeMb ((f .workers).getD Defaults.workers)
      ((f .retries).getD Defaults.retries) difficulty
  | .validate => .ok (.validate chain difficulty)
  | .table => .ok (.table chain)
  | .prove => do
    let file ← required (f .file)
    let index ← required (f .index)
    return .prove file index chain chunkSizeMb (f .json).isSome
  | .version => .ok .version

def defaultLogFormat : String := "pretty"

/-- Reads a command line.  The log format is the one named after the command, or before it, or in
the environment. -/
def parse (env : String → Option String) (args : List String) : Except Usage Invocation := do
  let (top, command) ← Reading.start.read none false args
  match command with
  | none =>
    let top ← top.settle
    let top ← top.fromEnvironment env (arguments none)
    throw (if (top.found .logFormat).isSome then .noCommand else .nothing)
  | some (verb, rest) =>
    let (sub, _) ← Reading.start.read (some verb) false rest
    let given ← sub.settle
    let all ← given.fromEnvironment env (arguments (some verb))
    let request ← Request.make all.found verb
    let top ← top.settle
    let logFormat := ((given.found .logFormat).or (top.found .logFormat)).or (all.found .logFormat)
    return ⟨logFormat.getD defaultLogFormat, request⟩

/-! ## log format -/

inductive LogFormat where
  | pretty
  | json
deriving DecidableEq, Repr

/-- the format that a text names, in either case; any other text names the default -/
def LogFormat.ofText (s : String) : LogFormat :=
  if s.toList.map Char.toLower = ['j', 's', 'o', 'n'] then .json else .pretty

end ChunkLedger.Command
