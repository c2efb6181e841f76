import ChunkLedger.Defaults
import ChunkLedger.Mining.Race

/-!
# Mining

A miner seals a block: it looks for a nonce with which the block's digest meets the difficulty.
Each attempt is a race (`Race`).  When all nonces have been tried in vain the timestamp is moved to
the present, which changes every digest, and the next attempt begins, as long as there are any left.

What a miner cannot decide itself (when tokens are cancelled, in which order the workers make
progress, what the clock says) is given to it as its `Surroundings`.
-/

namespace ChunkLedger.Mining

structure Config where
  /-- leading zero bits -/
  difficulty : Nat
  workers : Nat
  /-- attempts, the first one included -/
  maxRetries : Nat
  nonceLimit : UInt64
deriving DecidableEq

def Config.standard : Config :=
  ⟨Defaults.difficulty, Defaults.workers, Defaults.retries, UInt64.ofNat (UInt64.size - 1)⟩

inductive Fault where
  | noWorkers
  | noAttempts
  /-- the digest of every nonce of every attempt was too large -/
  | exhausted (attempts : Nat)
  | cancelled
  /-- a race ended without a result -/
  | workerLost
deriving DecidableEq

def Fault.message : Fault → String
  | .noWorkers => "mining requires at least one worker"
  | .noAttempts => "mining requires at least one attempt"
  | .exhausted n => "failed to mine block after " ++ toString n ++ " attempts"
  | .cancelled => "mining cancelled"
  | .workerLost => "mining worker terminated without reporting"

structure Outcome where
  nonce : UInt64
  hash : Digest
  worker : Nat
  /-- the attempt that succeeded, the first one being 1 -/
  attempts : Nat
deriving DecidableEq

/-- What happens around a miner, attempt by attempt. -/
structure Surroundings where
  /-- tokens cancelled before an attempt is begun -/
  before : Nat → List Token
  /-- events of the race -/
  during : Nat → List Event
  /-- the time after an attempt in vain -/
  clock : Nat → Instant

/-- nothing happens but that the clock goes -/
def Surroundings.quiet (clock : Nat → Instant) : Surroundings := ⟨fun _ => [], fun _ => [], clock⟩

structure Miner where
  config : Config
  token : Token
deriving DecidableEq

structure Mined where
  block : Block
  tokens : Tokens
  result : Except Fault Outcome

namespace Miner

/-- a miner with a token of its own, below `parent`; with a new tree if that is empty -/
def create (config : Config) (parent : Token) (ts : Tokens) : Miner × Tokens :=
  let (token, ts) := ts.child parent
  (⟨config, token⟩, ts)

/-- attempt number `k` and, if it is in vain, the `left` attempts after it but one -/
def attempts (config : Config) (token : Token) (stride_pos : 0 < config.workers)
    (s : Surroundings) : (left k : Nat) → Tokens → Block → Mined
  | 0, _, ts, b => ⟨b, ts, .error (.exhausted config.maxRetries)⟩
  | left+1, k, ts, b =>
    let ts := ts.cancelAll (s.before k)
    if ts.isCancelled token then ⟨b, ts, .error .cancelled⟩
    else
      let task : Task :=
        ⟨b, Difficulty.target config.difficulty, config.workers, stride_pos, config.nonceLimit⟩
      let (r, ts) := Race.run task token (s.during k) ts
      match r.result with
      | some (.found w n h) => ⟨{ b with nonce := n, hash := h }, ts, .ok ⟨n, h, w, k⟩⟩
      | some .exhausted =>
        attempts config token stride_pos s left (k + 1) ts
          (Block.rehash { b with timestamp := s.clock k })
      | some .cancelled => ⟨b, ts, .error .cancelled⟩
      | none => ⟨b, ts, .error .workerLost⟩

def mine (m : Miner) (s : Surroundings) (ts : Tokens) (b : Block) : Mined :=
  if h : m.config.workers = 0 then ⟨b, ts, .error .noWorkers⟩
  else if m.config.maxRetries = 0 then ⟨b, ts, .error .noAttempts⟩
  else attempts m.config m.token (Nat.pos_of_ne_zero h) s m.config.maxRetries 1 ts b

/-- seals the block `b` by a miner made for it -/
def mineOnce (config : Config) (s : Surroundings) (ts : Tokens) (b : Block) : Mined :=
  let (m, ts) := create config [] ts
  m.mine s ts b

end Miner

end ChunkLedger.Mining
