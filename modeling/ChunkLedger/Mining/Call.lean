import ChunkLedger.Mining.Miner

/-!
# Calls of a miner as others see them

`Miner.mine` tells what becomes of a block if every worker can be started.  `Miner.call` tells more.
The system may refuse to start a worker; then the race is given up, its token is cancelled, so that
the workers started before come to their end, and the call fails.  And with the outcome of a call
goes what others have cancelled while it was going on, as far as the call got (`Call.heard`).

Where no worker is refused a call is what mining is (`Miner.call_of_not_refused`).
-/

namespace ChunkLedger.Mining

/-- why a call has no outcome -/
inductive Failure where
  | fault (f : Fault)
  /-- the system refused to start a worker -/
  | refused
deriving DecidableEq

structure Call where
  block : Block
  tokens : Tokens
  result : Except Failure Outcome
  /-- the tokens that others have cancelled meanwhile -/
  heard : List Token

/-- the call, when others have cancelled some tokens before -/
def Call.after (heard : List Token) (c : Call) : Call := { c with heard := heard ++ c.heard }

/-- a call that comes to what mining does -/
def Mined.toCall (x : Mined) (heard : List Token) : Call :=
  ⟨x.block, x.tokens, x.result.mapError .fault, heard⟩

/-- the token that an event cancels -/
def Event.cancelled? : Event → Option Token
  | .cancel t => some t
  | _ => none

theorem mem_cancelled {events : List Event} {t : Token} :
    t ∈ events.filterMap Event.cancelled? ↔ Event.cancel t ∈ events := by
  rw [List.mem_filterMap]
  constructor
  · rintro ⟨e, he, ht⟩
    cases e with
    | cancel c =>
      obtain rfl : c = t := Option.some.inj ht
      exact he
    | work w => cases ht
    | arrive w => cases ht
  · intro h
    exact ⟨_, h, rfl⟩

namespace Miner

/-- Attempt number `k` and, if it is in vain, the `left` attempts after it but one.  In attempt `k`
the system refuses to start a worker if `refused k`. -/
def callAttempts (config : Config) (token : Token) (stride_pos : 0 < config.workers)
    (refused : Nat → Bool) (s : Surroundings) : (left k : Nat) → Tokens → Block → Call
  | 0, _, ts, b => ⟨b, ts, .error (.fault (.exhausted config.maxRetries)), []⟩
  | left+1, k, ts, b =>
    let ts := ts.cancelAll (s.before k)
    if ts.isCancelled token then ⟨b, ts, .error (.fault .cancelled), s.before k⟩
    else
      let task : Task :=
        ⟨b, Difficulty.target config.difficulty, config.workers, stride_pos, config.nonceLimit⟩
      let (r, ts) := Race.run task token (s.during k) ts
      let heard := s.before k ++ (s.during k).filterMap Event.cancelled?
      if refused k then ⟨b, ts, .error .refused, heard⟩
      else
        match r.result with
        | some (.found w n h) =>
          ⟨{ b with nonce := n, hash := h }, ts, .ok ⟨n, h, w, k⟩, heard⟩
        | some .exhausted =>
          (callAttempts config token stride_pos refused s left (k + 1) ts
            (Block.rehash { b with timestamp := s.clock k })).after heard
        | some .cancelled => ⟨b, ts, .error (.fault .cancelled), heard⟩
        | none => ⟨b, ts, .error (.fault .workerLost), heard⟩

def call (m : Miner) (refused : Nat → Bool) (s : Surroundings) (ts : Tokens) (b : Block) : Call :=
  if h : 0 < m.config.workers then
    if m.config.maxRetries = 0 then ⟨b, ts, .error (.fault .noAttempts), []⟩
    else callAttempts m.config m.token h refused s m.config.maxRetries 1 ts b
  else ⟨b, ts, .error (.fault .noWorkers), []⟩

section
variable {config : Config} {token : Token} {hw : 0 < config.workers} {refused : Nat → Bool}
  {s : Surroundings}

theorem callAttempts_of_not_refused (hno : ∀ k, refused k = false) (left k : Nat) (ts : Tokens)
    (b : Block) : callAttempts config token hw refused s left k ts b =
      (attempts config token hw s left k ts b).toCall
        (callAttempts config token hw refused s left k ts b).heard := by
  induction left generalizing k ts b with
  | zero => rfl
  | succ left ih =>
    rw [callAttempts, attempts]
    simp only [hno k, Bool.false_eq_true, if_false]
    split
    · rfl
    · generalize Race.run _ token (s.during k) (ts.cancelAll (s.before k)) = race
      cases race.1.result with
      | none => rfl
      | some x =>
        cases x with
        | found w n h => rfl
        | exhausted => exact congrArg (Call.after _) (ih _ _ _)
        | cancelled => rfl

/-- where no worker is refused a call is what mining is -/
theorem call_of_not_refused (hno : ∀ k, refused k = false) (m : Miner) (ts : Tokens) (b : Block) :
    m.call refused s ts b = (m.mine s ts b).toCall (m.call refused s ts b).heard := by
  unfold call mine
  by_cases hw : m.config.workers = 0
  · rw [dif_pos hw, dif_neg (Nat.not_lt.mpr (Nat.le_of_eq hw))]
    rfl
  · rw [dif_neg hw, dif_pos (Nat.pos_of_ne_zero hw)]
    split
    · rfl
    · exact callAttempts_of_not_refused hno _ _ _ _

end

end Miner

end ChunkLedger.Mining
