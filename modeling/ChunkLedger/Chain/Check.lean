import ChunkLedger.Block.Check
import ChunkLedger.Chain.Basic

/-!
# Checking chains

Blocks enter a chain one by one, each checked against the tip (`add`), or are appended unchecked
and verified later, from the first block on (`verify`).  `checkLinks` is a quicker look at digests
and indices only.
-/

namespace ChunkLedger.Chain

inductive Fault where
  | invalidBlock (f : Block.Fault)
  /-- two adjacent blocks, with these indices, that do not fit together -/
  | brokenLink (prev next : UInt64)
deriving DecidableEq

def Fault.message : Fault → String
  | .invalidBlock f => "block rejected: " ++ f.message
  | .brokenLink prev next =>
    "chain broken between blocks " ++ toString prev.toNat ++ " and " ++ toString next.toNat

def ofBlock : Except Block.Fault Unit → Except Fault Unit
  | .ok () => .ok ()
  | .error f => .error (.invalidBlock f)

/-- the chain that starts with `genesis`, which is checked -/
def start (genesis : Block) : Except Fault Chain :=
  match genesis.verifyGenesis with
  | .ok () => .ok (single genesis)
  | .error f => .error (.invalidBlock f)

/-- the chain with `b` after its tip, if it belongs there -/
def add (c : Chain) (b : Block) (difficulty : Nat) : Except Fault Chain :=
  match b.validate c.tip difficulty with
  | .ok () => .ok (c.append b)
  | .error f => .error (.invalidBlock f)

/-! ## verification -/

/-- checks each of the blocks against the one before it, the first one against `prev` -/
def verifyAfter (difficulty : Nat) : (prev : Block) → List Block → Except Block.Fault Unit
  | _, [] => .ok ()
  | prev, b :: bs =>
    match b.validate prev difficulty with
    | .ok () => verifyAfter difficulty b bs
    | .error f => .error f

def verify (c : Chain) (difficulty : Nat) : Except Fault Unit :=
  ofBlock <|
    match c.genesis.verifyGenesis with
    | .ok () => verifyAfter difficulty c.genesis c.later
    | .error f => .error f

/-! ## links -/

/-- `next` names `prev` as its parent and has the index after it -/
def linked (prev next : Block) : Bool :=
  next.prevHash = some prev.hash && Block.nextIndex? prev.index = some next.index

/-- the first two adjacent blocks that do not fit together, as indices -/
def firstBreak : (prev : Block) → List Block → Option (UInt64 × UInt64)
  | _, [] => none
  | prev, b :: bs => if linked prev b then firstBreak b bs else some (prev.index, b.index)

def checkLinks (c : Chain) : Except Fault Unit :=
  match firstBreak c.genesis c.later with
  | none => .ok ()
  | some (prev, next) => .error (.brokenLink prev next)

def isLinked (c : Chain) : Bool := (firstBreak c.genesis c.later).isNone

theorem linked_iff {prev next : Block} :
    linked prev next = true ↔
      next.prevHash = some prev.hash ∧ Block.nextIndex? prev.index = some next.index := by
  simp [linked]

theorem isLinked_iff {c : Chain} : c.isLinked = true ↔ c.checkLinks = .ok () := by
  unfold isLinked checkLinks
  cases firstBreak c.genesis c.later with
  | none => simp
  | some p => simp

end ChunkLedger.Chain
