import ChunkLedger.Mining.Search
import ChunkLedger.Mining.Token

/-!
# A race of workers

An attempt at mining is a race of workers over one task.  Everything that can happen is an event:
a worker makes a step, the report of a worker that stopped arrives, a token is cancelled.  A race is
run over any list of events and is then brought to its end, one worker after the other
(`Race.run`); so every order in which things can happen is covered by some list.

The first `found` to arrive settles the race.  Otherwise it is over when all reports have arrived:
exhausted if every worker was, and cancelled if not.

A race has a token below that of the miner, and each worker one below that of the race.
-/

namespace ChunkLedger.Mining

inductive Worker where
  /-- about to try a nonce -/
  | running (nonce : UInt64)
  /-- stopped; its report has not arrived yet -/
  | reporting (r : Report)
  | done
deriving DecidableEq

def Worker.ofProgress : Progress → Worker
  | .next n => .running n
  | .stopped r => .reporting r

inductive Result where
  | found (worker : Nat) (nonce : UInt64) (hash : Digest)
  | exhausted
  | cancelled
deriving DecidableEq

inductive Event where
  | work (worker : Nat)
  | arrive (worker : Nat)
  | cancel (t : Token)
deriving DecidableEq

structure Race where
  workers : List Worker
  /-- reports that have arrived from workers that found nothing -/
  exhausted : Nat
  /-- reports that have arrived from workers that found nothing or were cancelled -/
  stopped : Nat
  /-- the nonces hashed, last first -/
  tried : List UInt64
  /-- none until the race is settled -/
  result : Option Result
deriving DecidableEq

namespace Race

def start (t : Task) : Race where
  workers := (List.range t.stride).map fun w => .ofProgress (t.start w)
  exhausted := 0
  stopped := 0
  tried := []
  result := none

/-- worker `w`, with the token `w :: token`, makes a step if it is running -/
def work (t : Task) (token : Token) (ts : Tokens) (w : Nat) (r : Race) : Race :=
  match r.workers[w]? with
  | some (.running n) =>
    if ts.isCancelled (w :: token) then
      { r with workers := r.workers.set w (.reporting .cancelled) }
    else
      { r with workers := r.workers.set w (.ofProgress (t.probe n)), tried := n :: r.tried }
  | _ => r

/-- a report that says that nothing was found has been counted; settles the race after the last -/
def settle (r : Race) : Race :=
  if r.stopped = r.workers.length then
    { r with
      result := some (if r.exhausted = r.workers.length then .exhausted else .cancelled) }
  else r

/-- the report of worker `w` arrives, if it has one and the race is not settled -/
def arrive (w : Nat) (r : Race) : Race :=
  match r.result, r.workers[w]? with
  | none, some (.reporting (.found n h)) =>
    { r with workers := r.workers.set w .done, result := some (.found w n h) }
  | none, some (.reporting .exhausted) =>
    settle { r with
      workers := r.workers.set w .done
      exhausted := r.exhausted + 1
      stopped := r.stopped + 1 }
  | none, some (.reporting .cancelled) =>
    settle { r with workers := r.workers.set w .done, stopped := r.stopped + 1 }
  | _, _ => r

def step (t : Task) (token : Token) (s : Race × Tokens) : Event → Race × Tokens
  | .work w => (s.1.work t token s.2 w, s.2)
  | .arrive w => (s.1.arrive w, s.2)
  | .cancel c => (s.1, s.2.cancel c)

/-- worker `w` makes all the steps that are left to it -/
def workOut (t : Task) (token : Token) (ts : Tokens) (w : Nat) (r : Race) : Race :=
  match r.workers[w]? with
  | some (.running n) =>
    let cancelled := ts.isCancelled (w :: token)
    let (tried, report) := t.search (fun _ => cancelled) 0 r.tried n
    { r with workers := r.workers.set w (.reporting report), tried }
  | _ => r

/-- the workers `ws` make their steps and report, one after the other, until the race is settled -/
def finish (t : Task) (token : Token) (ts : Tokens) : (ws : List Nat) → Race → Race
  | [], r => r
  | w :: ws, r =>
    if r.result.isSome then r
    else finish t token ts ws ((r.workOut t token ts w).arrive w)

/-- The race over some events and then to its end.  The token of the race is cancelled when it is
over; `token` is that of the miner. -/
def run (t : Task) (token : Token) (events : List Event) (ts : Tokens) : Race × Tokens :=
  let (own, ts) := ts.child token
  let (r, ts) := events.foldl (step t own) (start t, ts)
  (r.finish t own ts (List.range t.stride), ts.cancel own)

@[simp] theorem length_workers_start (t : Task) : (start t).workers.length = t.stride := by
  simp [start]

@[simp] theorem workers_settle (r : Race) : r.settle.workers = r.workers := by
  unfold settle
  split <;> rfl

@[simp] theorem tried_settle (r : Race) : r.settle.tried = r.tried := by
  unfold settle
  split <;> rfl

end Race

end ChunkLedger.Mining
