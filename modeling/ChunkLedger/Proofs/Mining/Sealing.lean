import ChunkLedger.Mining.Miner
import ChunkLedger.Proofs.Mining.Attempt

/-!
# What a miner comes to

A miner goes from attempt to attempt as long as they are in vain.  Attempt number `k` finds the block
as `s.candidate b k`: the first one as it was given, each later one with the time that the clock
showed after the attempt before, and with the digest that belongs to it.

`x.Right config s b cancelled` says what the outcome `x` has to mean for the block `b` that was
given: which nonces have been tried in vain at which times (`Vain`), and what the block is now.
One attempt ends the mining or is in vain (`attempts_succ_cases`); from this it follows for the
attempts from any number on, by induction on how many are left (`attempts_right`).

The races of a miner have tokens of their own.  Nothing is assumed of the surroundings except where
an outcome says that the miner has been cancelled: this is so if no one else cancels those tokens
(`Surroundings.Outside`).
-/

namespace ChunkLedger.Mining

/-! ## attempts and their blocks -/

namespace Surroundings

/-- the time of the block in attempt `k` -/
def stamp (s : Surroundings) (b : Block) (k : Nat) : Instant :=
  if k = 1 then b.timestamp else s.clock (k - 1)

/-- the block as attempt `k` finds it -/
def candidate (s : Surroundings) (b : Block) (k : Nat) : Block :=
  if k = 1 then b else Block.rehash { b with timestamp := s.clock (k - 1) }

variable {s : Surroundings} {b : Block} {k : Nat}

theorem candidate_succ (hk : 0 < k) :
    s.candidate b (k + 1) = Block.rehash { b with timestamp := s.clock k } :=
  if_neg (by omega)

/-- an attempt leaves its block, with a new time, to the next one -/
theorem rehash_candidate (hk : 0 < k) :
    Block.rehash { s.candidate b k with timestamp := s.clock k } = s.candidate b (k + 1) := by
  rw [candidate_succ hk, candidate]
  split <;> rfl

/-- of the block that was given, a candidate has all but the time and the digest -/
theorem candidate_eq : s.candidate b k
    = { b with timestamp := s.stamp b k, hash := (s.candidate b k).hash } := by
  unfold candidate stamp
  split <;> rfl

/-- of a sealed candidate even the digest is new -/
theorem seal_candidate {n : UInt64} {h : Digest} :
    { s.candidate b k with nonce := n, hash := h }
      = { b with timestamp := s.stamp b k, nonce := n, hash := h } := by
  rw [candidate_eq]

theorem hashWithNonce_candidate (n : UInt64) :
    (s.candidate b k).hashWithNonce n = { b with timestamp := s.stamp b k }.hashWithNonce n := by
  rw [candidate_eq]
  rfl

end Surroundings

/-- at the time `now` no nonce up to the limit gives the block `b` a digest that is small enough -/
def Vain (config : Config) (b : Block) (now : Instant) : Prop :=
  ∀ n ≤ config.nonceLimit,
    Difficulty.meets ({ b with timestamp := now }.hashWithNonce n) config.difficulty = false

/-- the outcome says what is the case -/
def Mined.Right (config : Config) (s : Surroundings) (b : Block) (cancelled : Prop) (x : Mined) :
    Prop :=
  match x.result with
  | .ok o => (1 ≤ o.attempts ∧ o.attempts ≤ config.maxRetries) ∧
      x.block = { b with timestamp := s.stamp b o.attempts, nonce := o.nonce, hash := o.hash } ∧
      x.block.hash = x.block.computedHash ∧ x.block.meetsDifficulty config.difficulty = true ∧
      o.nonce ≤ config.nonceLimit ∧ o.nonce.toNat % config.workers = o.worker ∧
      ∀ j, 1 ≤ j → j < o.attempts → Vain config b (s.stamp b j)
  | .error (.exhausted k) => k = config.maxRetries ∧
      x.block = { b with timestamp := s.clock config.maxRetries, hash := x.block.hash } ∧
      x.block.hash = x.block.computedHash ∧
      ∀ j, 1 ≤ j → j ≤ config.maxRetries → Vain config b (s.stamp b j)
  | .error .cancelled => cancelled ∧
      ∃ k, 1 ≤ k ∧ k ≤ config.maxRetries ∧ x.block = s.candidate b k ∧
        ∀ j, 1 ≤ j → j < k → Vain config b (s.stamp b j)
  | .error _ => False

theorem Mined.Right.imp {config : Config} {s : Surroundings} {b : Block} {p q : Prop} {x : Mined}
    (h : x.Right config s b p) (hpq : p → q) : x.Right config s b q := by
  unfold Mined.Right at h ⊢
  split at h
  · exact h
  · exact h
  · exact ⟨hpq h.1, h.2⟩
  · exact h

/-! ## tokens -/

/-- cancelling `c` cancels no token that is made right below `token` from number `made` on, nor one
below that -/
def Token.Spares (token : Token) (made : Nat) (c : Token) : Prop :=
  ∀ n, made ≤ n → ¬ n :: token <:+ c

/-- no one but the miner with this token cancels the tokens that it will make -/
structure Surroundings.Outside (s : Surroundings) (token : Token) (ts : Tokens) : Prop where
  held : ∀ c ∈ ts.cancelled, token.Spares ts.made c
  before : ∀ k, ∀ c ∈ s.before k, token.Spares ts.made c
  during : ∀ k c, Event.cancel c ∈ s.during k → token.Spares ts.made c

section
variable {s : Surroundings} {token : Token} {ts : Tokens} {made : Nat}

theorem Token.Spares.succ {c : Token} (h : token.Spares made c) : token.Spares (made + 1) c :=
  fun n hn => h n (Nat.le_of_succ_le hn)

/-- a token made before spares those made after it -/
theorem Token.spares_self : token.Spares (made + 1) (made :: token) := by
  intro n hn hsuf
  have e := (List.cons.inj (hsuf.eq_of_length rfl)).1
  omega

/-- tokens made before spare those made from now on -/
theorem Token.spares_of_made {c : Token} (h : ∀ n ∈ c, n < made) : token.Spares made c := by
  intro n hn hsuf
  have hlt := h n (hsuf.subset List.mem_cons_self)
  omega

namespace Surroundings.Outside

theorem cancelAll (h : s.Outside token ts) (k : Nat) :
    s.Outside token (ts.cancelAll (s.before k)) := by
  refine ⟨?_, ?_, ?_⟩
  · intro c hc
    rw [Tokens.made_cancelAll]
    rcases Tokens.mem_cancelled_cancelAll.mp hc with hc | hc
    · exact h.before k c hc
    · exact h.held c hc
  · rw [Tokens.made_cancelAll]
    exact h.before
  · rw [Tokens.made_cancelAll]
    exact h.during

/-- a race has its token to itself -/
theorem isPrivate (h : s.Outside token ts) (k : Nat) : Race.Private token (s.during k) ts where
  fresh c hc := h.held c hc ts.made (Nat.le_refl _)
  kept c hc := h.during k c hc ts.made (Nat.le_refl _)

theorem run (h : s.Outside token ts) (t : Task) (k : Nat) :
    s.Outside token (Race.run t token (s.during k) ts).2 := by
  refine ⟨?_, ?_, ?_⟩
  · intro c hc
    rw [Race.made_run]
    rcases Race.mem_cancelled_run.mp hc with rfl | hc | hc
    · exact Token.spares_self
    · exact (h.held c hc).succ
    · exact (h.during k c hc).succ
  · intro j c hc
    rw [Race.made_run]
    exact (h.before j c hc).succ
  · intro j c hc
    rw [Race.made_run]
    exact (h.during j c hc).succ

end Surroundings.Outside

end

namespace Miner

/-! ## one attempt -/

/-- what the workers of an attempt are given -/
def taskOf (config : Config) (hw : 0 < config.workers) (b : Block) : Task :=
  ⟨b, Difficulty.target config.difficulty, config.workers, hw, config.nonceLimit⟩

section
variable {config : Config} {token : Token} {hw : 0 < config.workers} {s : Surroundings}
  {left k : Nat} {ts : Tokens} {b : Block}

/-- an attempt is not begun if the miner has been cancelled; otherwise its race decides -/
theorem attempts_succ : attempts config token hw s (left + 1) k ts b =
    if (ts.cancelAll (s.before k)).isCancelled token then
      ⟨b, ts.cancelAll (s.before k), .error .cancelled⟩
    else
      let race := Race.run (taskOf config hw b) token (s.during k) (ts.cancelAll (s.before k))
      match race.1.result with
      | some (.found w n h) => ⟨{ b with nonce := n, hash := h }, race.2, .ok ⟨n, h, w, k⟩⟩
      | some .exhausted =>
        attempts config token hw s left (k + 1) race.2
          (Block.rehash { b with timestamp := s.clock k })
      | some .cancelled => ⟨b, race.2, .error .cancelled⟩
      | none => ⟨b, race.2, .error .workerLost⟩ := rfl

/-- an attempt in vain has tried all nonces at its time -/
theorem vain_of_task (h : ∀ n ≤ config.nonceLimit,
    (taskOf config hw (s.candidate b k)).qualifies n = false) : Vain config b (s.stamp b k) := by
  intro n hn
  rw [← Surroundings.hashWithNonce_candidate]
  exact h n hn

/-- **What one attempt does.**  It ends with the miner cancelled and the block as it was, or with a
nonce that will do for the block, or it is in vain and leaves the block, with a new time, to the
attempts that are left. -/
theorem attempts_succ_cases (hk : 1 ≤ k) {x : Mined}
    (hx : attempts config token hw s (left + 1) k ts (s.candidate b k) = x) :
    (x.result = .error .cancelled ∧ x.block = s.candidate b k ∧
      (s.Outside token ts → x.tokens.isCancelled token = true)) ∨
    (∃ n w, x.result = .ok ⟨n, (s.candidate b k).hashWithNonce n, w, k⟩ ∧
      x.block = { s.candidate b k with nonce := n, hash := (s.candidate b k).hashWithNonce n } ∧
      x.block.meetsDifficulty config.difficulty = true ∧ n ≤ config.nonceLimit ∧
      n.toNat % config.workers = w) ∨
    (Vain config b (s.stamp b k) ∧ ∃ ts', (s.Outside token ts → s.Outside token ts') ∧
      x = attempts config token hw s left (k + 1) ts' (s.candidate b (k + 1))) := by
  rw [attempts_succ] at hx
  split at hx
  · rename_i hcan
    subst hx
    exact .inl ⟨rfl, rfl, fun _ => hcan⟩
  · -- what the race decides is right; only for a cancelled one the tokens matter
    have hheard : Race.Heard (true = true) ((ts.cancelAll (s.before k)).child token).1
        (s.during k) ((ts.cancelAll (s.before k)).child token).2 :=
      ⟨fun _ _ => rfl, fun _ _ _ _ => rfl⟩
    obtain ⟨y, hy, hright⟩ := Race.exists_right (t := taskOf config hw (s.candidate b k)) hheard
    simp only [hy] at hx
    cases y with
    | found w n h =>
      obtain ⟨-, hlim, hmod, rfl, hmeets, -⟩ := hright
      subst hx
      exact .inr (.inl ⟨n, w, rfl, rfl, Difficulty.meetsTarget_iff.mpr hmeets, hlim, hmod⟩)
    | exhausted =>
      rw [Surroundings.rehash_candidate hk] at hx
      exact .inr (.inr ⟨vain_of_task hright.1, _, fun h => (h.cancelAll k).run _ k, hx.symm⟩)
    | cancelled =>
      subst hx
      refine .inl ⟨rfl, rfl, fun hout => ?_⟩
      obtain ⟨z, hz, hright⟩ := Race.run_right (t := taskOf config hw (s.candidate b k))
        ((hout.cancelAll k).isPrivate k)
      rw [hy] at hz
      obtain rfl := Option.some.inj hz
      exact hright

/-! ## all attempts -/

/-- what the attempts from number `k` on come to, if those before it were in vain -/
theorem attempts_right (hr : 0 < config.maxRetries) (hk : 1 ≤ k)
    (hleft : k + left = config.maxRetries + 1)
    (hvain : ∀ j, 1 ≤ j → j < k → Vain config b (s.stamp b j)) :
    (attempts config token hw s left k ts (s.candidate b k)).Right config s b
      (s.Outside token ts →
        (attempts config token hw s left k ts (s.candidate b k)).tokens.isCancelled token = true) := by
  induction left generalizing k ts with
  | zero =>
    obtain rfl : k = config.maxRetries + 1 := hleft
    have hblock := Surroundings.candidate_succ (s := s) (b := b) hr
    refine ⟨rfl, ?_, ?_, fun j hj hle => hvain j hj (Nat.lt_succ_of_le hle)⟩
    · show s.candidate b (config.maxRetries + 1) = _
      rw [hblock]
      rfl
    · show (s.candidate b (config.maxRetries + 1)).hash = _
      rw [hblock]
      rfl
  | succ left ih =>
    have hle : k ≤ config.maxRetries := by omega
    generalize hx : attempts config token hw s (left + 1) k ts (s.candidate b k) = x
    rcases attempts_succ_cases hk hx with ⟨hres, hblock, hcan⟩
      | ⟨n, w, hres, hblock, hmeets, hlim, hmod⟩ | ⟨hnow, ts', hout, rfl⟩
    · rw [Mined.Right, hres]
      exact ⟨hcan, k, hk, hle, hblock, hvain⟩
    · have hhash : x.block.hash = x.block.computedHash := by
        rw [hblock]
        rfl
      rw [Mined.Right, hres]
      exact ⟨⟨hk, hle⟩, hblock.trans Surroundings.seal_candidate, hhash, hmeets, hlim, hmod, hvain⟩
    · have hvain' : ∀ j, 1 ≤ j → j < k + 1 → Vain config b (s.stamp b j) := by
        intro j hj hlt
        rcases Nat.lt_succ_iff_lt_or_eq.mp hlt with hlt | rfl
        · exact hvain j hj hlt
        · exact hnow
      exact (ih (Nat.le_succ_of_le hk) (by omega) hvain').imp fun h hts => h (hout hts)

/-- what all attempts come to -/
theorem attempts_all_right (hr : 0 < config.maxRetries) :
    (attempts config token hw s config.maxRetries 1 ts b).Right config s b
      (s.Outside token ts →
        (attempts config token hw s config.maxRetries 1 ts b).tokens.isCancelled token = true) := by
  refine attempts_right hr (Nat.le_refl 1) (Nat.add_comm _ _) ?_
  intro j hj hlt
  omega

end

/-! ## mining -/

variable {m : Miner} {s : Surroundings} {ts : Tokens} {b : Block}

theorem mine_eq (hw : 0 < m.config.workers) (hr : 0 < m.config.maxRetries) :
    m.mine s ts b = attempts m.config m.token hw s m.config.maxRetries 1 ts b := by
  rw [mine, dif_neg (Nat.ne_of_gt hw), if_neg (Nat.ne_of_gt hr)]

/-- a miner that complains of no configuration has workers and attempts -/
theorem config_of_result (hw : (m.mine s ts b).result ≠ .error .noWorkers)
    (hr : (m.mine s ts b).result ≠ .error .noAttempts) :
    0 < m.config.workers ∧ 0 < m.config.maxRetries := by
  by_cases h : m.config.workers = 0
  · rw [mine, dif_pos h] at hw
    exact absurd rfl hw
  · by_cases h' : m.config.maxRetries = 0
    · rw [mine, dif_neg h, if_pos h'] at hr
      exact absurd rfl hr
    · exact ⟨Nat.pos_of_ne_zero h, Nat.pos_of_ne_zero h'⟩

/-- only a miner that has workers and attempts seals a block -/
theorem config_of_ok {o : Outcome} (h : (m.mine s ts b).result = .ok o) :
    0 < m.config.workers ∧ 0 < m.config.maxRetries := by
  apply config_of_result
  · rw [h]; exact nofun
  · rw [h]; exact nofun

/-- a sealed block is the one that was given with a new time, nonce and digest; the digest is that
of its fields and meets the difficulty -/
theorem sealed_of_ok {o : Outcome} (h : (m.mine s ts b).result = .ok o) :
    (m.mine s ts b).block
        = { b with timestamp := s.stamp b o.attempts, nonce := o.nonce, hash := o.hash } ∧
      (m.mine s ts b).block.hash = (m.mine s ts b).block.computedHash ∧
      (m.mine s ts b).block.meetsDifficulty m.config.difficulty = true := by
  obtain ⟨hw, hr⟩ := config_of_ok h
  rw [mine_eq hw hr] at h ⊢
  have hright : (attempts m.config m.token hw s m.config.maxRetries 1 ts b).Right m.config s b _ :=
    attempts_all_right hr
  rw [Mined.Right, h] at hright
  obtain ⟨-, hblock, hhash, hmeets, -⟩ := hright
  exact ⟨hblock, hhash, hmeets⟩

/-- where nothing happens, a miner that asks nothing of a digest seals every block -/
theorem exists_ok_of_quiet (hw : 0 < m.config.workers) (hr : 0 < m.config.maxRetries)
    (hd : m.config.difficulty = 0) {clock : Nat → Instant}
    (hout : (Surroundings.quiet clock).Outside m.token ts) (hlive : ts.isCancelled m.token = false) :
    ∃ o, (m.mine (.quiet clock) ts b).result = .ok o := by
  obtain ⟨left, hleft⟩ := Nat.exists_eq_succ_of_ne_zero (Nat.ne_of_gt hr)
  have hstart : ¬(ts.cancelAll ((Surroundings.quiet clock).before 1)).isCancelled m.token = true :=
    Bool.eq_false_iff.mp hlive
  obtain ⟨x, hx, hright⟩ := Race.run_right (t := taskOf m.config hw b) (hout.isPrivate 1)
  rw [mine_eq hw hr, hleft, attempts_succ, if_neg hstart]
  show ∃ o, Mined.result (match (Race.run (taskOf m.config hw b) m.token _ ts).1.result with
    | some (.found w n h) => _ | some .exhausted => _ | some .cancelled => _ | none => _) = .ok o
  rw [hx]
  cases x with
  | found w n h => exact ⟨_, rfl⟩
  | exhausted =>
    have hmiss : Difficulty.meets (b.hashWithNonce 0) m.config.difficulty = false :=
      hright.1 0 (UInt64.zero_le)
    rw [hd, Difficulty.meets_zero] at hmiss
    cases hmiss
  | cancelled =>
    rcases (Race.isCancelled_run _ _ _ _).mp hright with h | ⟨c, hc, -⟩
    · rw [hlive] at h
      cases h
    · cases hc

/-- **Mining is right end to end.**  Whatever the clock shows, whenever tokens are cancelled and in
whichever order the workers get on: a sealed block has the nonce and the digest that are reported,
they belong to the time that the block now has, and at all times before no nonce would have done; a
miner that gives up has tried every nonce at every time but the last; and a miner that stops early
has been cancelled, if the tokens of its races are its own.  There is no other outcome. -/
theorem result_mine (hw : 0 < m.config.workers) (hr : 0 < m.config.maxRetries) :
    (m.mine s ts b).Right m.config s b
      (s.Outside m.token ts → (m.mine s ts b).tokens.isCancelled m.token = true) := by
  rw [mine_eq hw hr]
  exact attempts_all_right hr

/-- two workers, three nonces and up to three attempts -/
def fewNonces : Miner := ⟨⟨1, 2, 3, 2⟩, [0]⟩

/-- the first block of all chains, dated four minutes later -/
def lateBlock : Block :=
  Block.rehash { Block.genesis with timestamp := (Instant.ofParts? 240 0).getD .epoch }

/-- the clock goes back to the epoch, the second worker is ahead, and a token next to that of the
miner is cancelled -/
def backwards : Surroundings :=
  ⟨fun _ => [], fun _ => [.work 1, .cancel [1], .arrive 1], fun _ => .epoch⟩

theorem result_mine_backwards :
    backwards.Outside fewNonces.token ⟨{}, 2⟩ ∧
      ∃ o, (fewNonces.mine backwards ⟨{}, 2⟩ lateBlock).result = .ok o ∧
        (o.nonce, o.worker, o.attempts) = (1, 1, 2) ∧
        (fewNonces.mine backwards ⟨{}, 2⟩ lateBlock).block.timestamp = .epoch ∧
        (fewNonces.mine backwards ⟨{}, 2⟩ lateBlock).block.hash
          = (fewNonces.mine backwards ⟨{}, 2⟩ lateBlock).block.computedHash ∧
        Vain fewNonces.config lateBlock lateBlock.timestamp := by
  have hout : backwards.Outside fewNonces.token ⟨{}, 2⟩ := by
    refine ⟨?_, ?_, ?_⟩
    · intro c hc
      simp at hc
    · intro k c hc
      cases hc
    · intro k c hc
      obtain rfl : c = [1] := by simpa [backwards] using hc
      exact Token.spares_of_made (by decide)
  have hrun : ((fewNonces.mine backwards ⟨{}, 2⟩ lateBlock).result.toOption.map
      fun o => (o.nonce, o.worker, o.attempts)) = some (1, 1, 2) := by decide +kernel
  have hright : (fewNonces.mine backwards ⟨{}, 2⟩ lateBlock).Right fewNonces.config backwards
      lateBlock _ := result_mine (by decide) (by decide)
  cases h : (fewNonces.mine backwards ⟨{}, 2⟩ lateBlock).result with
  | error f => rw [h] at hrun; cases hrun
  | ok o =>
    rw [h] at hrun
    have hparts := Option.some.inj hrun
    have hattempts : o.attempts = 2 := congrArg (fun p => p.2.2) hparts
    simp only [Mined.Right, h, hattempts] at hright
    obtain ⟨-, hblock, hhash, -, -, -, hvain⟩ := hright
    exact ⟨hout, o, rfl, hparts, congrArg Block.timestamp hblock, hhash,
      hvain 1 (Nat.le_refl 1) (by decide)⟩

end Miner

end ChunkLedger.Mining
