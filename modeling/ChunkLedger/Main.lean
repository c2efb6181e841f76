import ChunkLedger.Command.Run
import Std.Time.DateTime.Timestamp

/-!
# The program

The machine as a host: its files, its clock and its processor.  What to do with them is decided in
`Command.program`.
-/

namespace ChunkLedger

def Disk.Fault.ofSystem : IO.Error → Disk.Fault
  | .noFileOrDirectory _ _ _ => .notFound
  | .alreadyExists _ _ _ => .exists
  | .inappropriateType _ code _ => if code = 21 then .isFolder else .notFolder
  | .resourceBusy _ _ => .busy
  | .invalidArgument _ 36 _ => .tooLong
  | e => .other (toString e)

/-- does something, and gives a refusal back as a value -/
def attempt {α : Type} (act : IO α) : IO (Except Disk.Fault α) := do
  try
    return .ok (← act)
  catch e =>
    return .error (.ofSystem e)

def present : IO Instant := do
  let nanos := (← Std.Time.Timestamp.now).toNanosecondsSinceUnixEpoch.toInt
  return (Instant.ofParts? (nanos / nanosPerSecond) (nanos % nanosPerSecond).toNat).getD .epoch

def performStep : Disk.Step → IO Unit
  | .makeFolders p => IO.FS.createDirAll p.text
  | .create p => IO.FS.writeBinFile p.text .empty
  | .append p bs => do
    let h ← IO.FS.Handle.mk p.text .append
    h.write ⟨bs.toArray⟩
    h.flush
  | .sync _ => pure ()
  | .rename source target => IO.FS.rename source.text target.text

def performSteps : List Disk.Step → IO Unit
  | [] => pure ()
  | s :: ss => do
    performStep s
    performSteps ss

/-- attempt number `k` at mining and the `left` attempts after it but one, each with the clock read
when the one before has ended -/
def mineAttempts (config : Mining.Config) :
    (left k : Nat) → Block → IO (Block × Except Mining.Fault Mining.Outcome)
  | 0, _, b => return (b, .error (.exhausted config.maxRetries))
  | left+1, k, b => do
    let m := Mining.Miner.mineOnce { config with maxRetries := 1 } (.quiet fun _ => .epoch) .none b
    match m.result with
    | .ok o => return (m.block, .ok { o with attempts := k })
    | .error (.exhausted _) =>
      mineAttempts config left (k + 1) (Block.rehash { b with timestamp := ← present })
    | .error f => return (m.block, .error f)

instance : Command.Host IO where
  has p := do
    match ← attempt (IO.FS.Handle.mk p.text .read) with
    | .error .notFound => return false
    | .error .notFolder => return false
    | _ => return true
  read p := attempt do return (← IO.FS.readBinFile p.text).toList
  perform steps := attempt (performSteps steps)
  now := present
  mine config b := do
    let started ← IO.monoNanosNow
    let (b, result) ← mineAttempts config config.maxRetries 1 b
    return ⟨b, result, (← IO.monoNanosNow) - started⟩

def environment : IO (String → Option String) := do
  let mut found : List (String × String) := []
  for v in Command.Verb.all do
    for a in Command.arguments (some v) do
      if let some name := a.environmentName? then
        if let some value ← IO.getEnv name then
          found := (name, value) :: found
  return fun name => (found.find? (·.1 = name)).map (·.2)

end ChunkLedger

open ChunkLedger in
/-- Runs the program with the arguments of the command line. -/
def main (args : List String) : IO UInt32 := do
  let ending : Command.Ending ← Command.program (← environment) args
  (← IO.getStdout).putStr ending.output
  (← IO.getStderr).putStr ending.errors
  return UInt32.ofNat ending.code
