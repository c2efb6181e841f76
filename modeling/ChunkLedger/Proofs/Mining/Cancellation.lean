import ChunkLedger.Mining.Call
import ChunkLedger.Proofs.Mining.Attempt
import Mathlib.Data.List.Induction

/-!
# Cancellation goes down and not up

Every attempt makes a token below that of the miner, and cancels it in the end, however it ends.  So
besides the tokens that others cancel meanwhile a call cancels only some right below the miner's
(`Call.CancelsOnly`).  None of them is above another token, unless that is below the miner's token
itself; in particular none is above the miner's token, the one above it, or those of other miners
next to it (`Call.CancelsOnly.isCancelled_iff`).

* `Operation`     what can be done with a miner, its clones and the token that it was made below;
* `History`       the tokens after some operations, and what has been cancelled by name so far;
* `History.run`   operations one after the other;
* `History.Logs`  what is cancelled by name, in which operations.

What a call does to tokens is shown by induction on the attempts that are left
(`Miner.cancelsOnly_callAttempts`), and then what all operations do by induction on them
(`History.isCancelled_run`).
-/

namespace ChunkLedger.Mining

/-! ## what a call cancels -/

/-- the token is one that others cancel before an attempt or during it -/
def Surroundings.Cancels (s : Surroundings) (t : Token) : Prop :=
  ∃ k, t ∈ s.before k ∨ Event.cancel t ∈ s.during k

/-- from the tokens `ts` on, the call has cancelled what others have cancelled meanwhile and tokens
right below `token`, and nothing else -/
structure Call.CancelsOnly (s : Surroundings) (token : Token) (ts : Tokens) (c : Call) : Prop where
  others : ∀ t ∈ c.heard, s.Cancels t
  kept : ∀ t ∈ ts.cancelled, t ∈ c.tokens.cancelled
  heard : ∀ t ∈ c.heard, t ∈ c.tokens.cancelled
  only : ∀ t ∈ c.tokens.cancelled, t ∈ ts.cancelled ∨ t ∈ c.heard ∨ ∃ n, t = n :: token

namespace Call.CancelsOnly

variable {s : Surroundings} {token : Token} {ts : Tokens} {c : Call}

/-- a call that does nothing with tokens -/
theorem refl (b : Block) (ts : Tokens) (x : Except Failure Outcome) :
    CancelsOnly s token ts ⟨b, ts, x, []⟩ :=
  ⟨fun _ h => (nomatch h), fun _ h => h, fun _ h => (nomatch h), fun _ h => .inl h⟩

/-- a call that is given up when others have cancelled some tokens -/
theorem before (k : Nat) (ts : Tokens) (b : Block) (x : Except Failure Outcome) :
    CancelsOnly s token ts ⟨b, ts.cancelAll (s.before k), x, s.before k⟩ where
  others _ h := ⟨k, .inl h⟩
  kept _ h := Tokens.mem_cancelled_cancelAll.mpr (.inr h)
  heard _ h := Tokens.mem_cancelled_cancelAll.mpr (.inl h)
  only _ h := (Tokens.mem_cancelled_cancelAll.mp h).elim (.inr ∘ .inl) .inl

/-- one attempt, whatever comes of it -/
theorem race (t : Task) (k : Nat) (ts : Tokens) (b : Block) (x : Except Failure Outcome) :
    CancelsOnly s token ts ⟨b, (Race.run t token (s.during k) (ts.cancelAll (s.before k))).2, x,
      s.before k ++ (s.during k).filterMap Event.cancelled?⟩ where
  others c h := by
    rw [List.mem_append, mem_cancelled] at h
    exact ⟨k, h⟩
  kept _ h := Race.mem_cancelled_run.mpr (.inr (.inl (Tokens.mem_cancelled_cancelAll.mpr (.inr h))))
  heard c h := by
    rw [List.mem_append, mem_cancelled] at h
    rcases h with h | h
    · exact Race.mem_cancelled_run.mpr (.inr (.inl (Tokens.mem_cancelled_cancelAll.mpr (.inl h))))
    · exact Race.mem_cancelled_run.mpr (.inr (.inr h))
  only c h := by
    rw [List.mem_append, mem_cancelled]
    rcases Race.mem_cancelled_run.mp h with rfl | h | h
    · exact .inr (.inr ⟨_, rfl⟩)
    · rcases Tokens.mem_cancelled_cancelAll.mp h with h | h
      · exact .inr (.inl (.inl h))
      · exact .inl h
    · exact .inr (.inl (.inr h))

/-- what is known of the attempts that are left is known of all -/
theorem after {ts' : Tokens} {heard : List Token} (h : CancelsOnly s token ts' c)
    (hts : CancelsOnly s token ts ⟨c.block, ts', c.result, heard⟩) :
    CancelsOnly s token ts (c.after heard) where
  others t ht := (List.mem_append.mp ht).elim (hts.others t) (h.others t)
  kept t ht := h.kept t (hts.kept t ht)
  heard t ht := by
    rcases List.mem_append.mp ht with ht | ht
    · exact h.kept t (hts.heard t ht)
    · exact h.heard t ht
  only t ht := by
    rcases h.only t ht with ht | ht | ht
    · rcases hts.only t ht with ht | ht | ht
      · exact .inl ht
      · exact .inr (.inl (List.mem_append_left _ ht))
      · exact .inr (.inr ht)
    · exact .inr (.inl (List.mem_append_right _ ht))
    · exact .inr (.inr ht)

/-- a call cancels no token but those below the miner's, unless others do -/
theorem isCancelled_iff (h : CancelsOnly s token ts c) {t : Token} (ht : token <:+ t → t = token) :
    c.tokens.isCancelled t = true ↔
      ts.isCancelled t = true ∨ ∃ d ∈ c.heard, d <:+ t := by
  simp only [Tokens.isCancelled_iff]
  constructor
  · rintro ⟨d, hd, hsuf⟩
    rcases h.only d hd with hd | hd | ⟨n, rfl⟩
    · exact .inl ⟨d, hd, hsuf⟩
    · exact .inr ⟨d, hd, hsuf⟩
    · -- the token of a race is longer than the miner's
      obtain rfl := ht ((List.suffix_cons n token).trans hsuf)
      exact absurd hsuf.length_le (by simp)
  · rintro (⟨d, hd, hsuf⟩ | ⟨d, hd, hsuf⟩)
    · exact ⟨d, h.kept d hd, hsuf⟩
    · exact ⟨d, h.heard d hd, hsuf⟩

end Call.CancelsOnly

namespace Miner

/-- **Attempts cancel no one's tokens but their own.** -/
theorem cancelsOnly_callAttempts {config : Config} {token : Token} {hw : 0 < config.workers}
    {refused : Nat → Bool} {s : Surroundings} (left k : Nat) (ts : Tokens) (b : Block) :
    (callAttempts config token hw refused s left k ts b).CancelsOnly s token ts := by
  induction left generalizing k ts b with
  | zero => exact .refl b ts _
  | succ left ih =>
    rw [callAttempts]
    simp only
    split
    · exact .before k ts b _
    · split
      · exact .race _ k ts b _
      · split
        · exact .race _ k ts _ _
        · exact (ih _ _ _).after (.race _ k ts _ _)
        · exact .race _ k ts b _
        · exact .race _ k ts b _

variable (m : Miner) (refused : Nat → Bool) (s : Surroundings) (ts : Tokens) (b : Block)

theorem cancelsOnly_call : (m.call refused s ts b).CancelsOnly s m.token ts := by
  unfold call
  split
  · split
    · exact .refl b ts _
    · exact cancelsOnly_callAttempts _ _ _ _
  · exact .refl b ts _

theorem isCancelled_cancelAll {t : Token} (l : List Token) (h : ts.isCancelled t = true) :
    (ts.cancelAll l).isCancelled t = true := by
  obtain ⟨c, hc, hsuf⟩ := Tokens.isCancelled_iff.mp h
  exact Tokens.isCancelled_iff.mpr ⟨c, Tokens.mem_cancelled_cancelAll.mpr (.inr hc), hsuf⟩

/-- a miner that has been cancelled does nothing with a block -/
theorem call_of_cancelled (hw : 0 < m.config.workers) (hr : 0 < m.config.maxRetries)
    (h : ts.isCancelled m.token = true) :
    (m.call refused s ts b).result = .error (.fault .cancelled) ∧
      (m.call refused s ts b).block = b := by
  obtain ⟨left, hleft⟩ := Nat.exists_eq_add_of_lt hr
  rw [Nat.zero_add] at hleft
  have hcall : m.call refused s ts b
      = ⟨b, ts.cancelAll (s.before 1), .error (.fault .cancelled), s.before 1⟩ := by
    rw [call, dif_pos hw, if_neg (Nat.ne_of_gt hr), hleft, callAttempts]
    exact if_pos (isCancelled_cancelAll ts _ h)
  rw [hcall]
  exact ⟨rfl, rfl⟩

/-- a new miner is cancelled only if what it was made below is -/
theorem isCancelled_create {config : Config} {parent : Token} {ts : Tokens}
    (hts : ∀ c ∈ ts.cancelled, ∀ n ∈ c, n < ts.made) :
    (create config parent ts).2.isCancelled (create config parent ts).1.token = true ↔
      ts.isCancelled parent = true := by
  show (ts.child parent).2.isCancelled (ts.made :: parent) = true ↔ _
  rw [Tokens.isCancelled_child, Tokens.isCancelled_iff, Tokens.isCancelled_iff]
  constructor
  · rintro ⟨c, hc, hsuf⟩
    rcases List.suffix_cons_iff.mp hsuf with rfl | hsuf
    · exact absurd (hts _ hc ts.made List.mem_cons_self) (Nat.lt_irrefl _)
    · exact ⟨c, hc, hsuf⟩
  · rintro ⟨c, hc, hsuf⟩
    exact ⟨c, hc, hsuf.trans (List.suffix_cons _ _)⟩

end Miner

/-! ## histories -/

/-- what a miner, or more than it, can be cancelled through -/
inductive Handle where
  | miner
  /-- a clone of the miner has the same token -/
  | clone
  /-- what the miner was made below -/
  | parent
deriving DecidableEq

def Handle.token (m : Miner) (parent : Token) : Handle → Token
  | .miner => m.token
  | .clone => m.token
  | .parent => parent

inductive Operation where
  | cancel (through : Handle)
  /-- a call of the miner or of a clone, or of a miner with its token and another configuration -/
  | mine (config : Config) (refused : Nat → Bool) (s : Surroundings) (b : Block)

/-- the token is cancelled by name in the operation, by others if that is a call -/
def Operation.Cancels (m : Miner) (parent : Token) : Operation → Token → Prop
  | .cancel w, t => t = w.token m parent
  | .mine _ _ s _, t => s.Cancels t

/-- the tokens after some operations, and those cancelled by name since the miner was made -/
structure History where
  tokens : Tokens
  cancelled : List Token

namespace History

def step (m : Miner) (parent : Token) (h : History) : Operation → History
  | .cancel w => ⟨h.tokens.cancel (w.token m parent), h.cancelled ++ [w.token m parent]⟩
  | .mine config refused s b =>
    let c := Miner.call ⟨config, m.token⟩ refused s h.tokens b
    ⟨c.tokens, h.cancelled ++ c.heard⟩

def run (m : Miner) (parent : Token) (ops : List Operation) (ts : Tokens) : History :=
  ops.foldl (step m parent) ⟨ts, []⟩

variable {m : Miner} {parent : Token} {ts : Tokens} {h : History} {t : Token}
  {ops : List Operation}

theorem run_concat (m : Miner) (parent : Token) (ops : List Operation) (op : Operation)
    (ts : Tokens) :
    run m parent (ops ++ [op]) ts = (run m parent ops ts).step m parent op :=
  List.foldl_concat _ _ _ _

/-- what has been cancelled by name was so in one of the operations, and every cancellation through
a handle is among it -/
structure Logs (m : Miner) (parent : Token) (ops : List Operation) (h : History) : Prop where
  source : ∀ c ∈ h.cancelled, ∃ op ∈ ops, op.Cancels m parent c
  through : ∀ w, Operation.cancel w ∈ ops → w.token m parent ∈ h.cancelled

theorem mem_cancelled_step {op : Operation} {c : Token}
    (hc : c ∈ (h.step m parent op).cancelled) : c ∈ h.cancelled ∨ op.Cancels m parent c := by
  cases op with
  | cancel w => exact (List.mem_append.mp hc).imp_right List.mem_singleton.mp
  | mine config refused s b =>
    have honly := Miner.cancelsOnly_call ⟨config, m.token⟩ refused s h.tokens b
    exact (List.mem_append.mp hc).imp_right (honly.others c)

theorem Logs.step (hl : Logs m parent ops h) (op : Operation) :
    Logs m parent (ops ++ [op]) (h.step m parent op) where
  source c hc := by
    rcases mem_cancelled_step hc with hc | hc
    · obtain ⟨o, ho, hcancels⟩ := hl.source c hc
      exact ⟨o, List.mem_append_left _ ho, hcancels⟩
    · exact ⟨op, by simp, hc⟩
  through w hw := by
    have hkept : h.cancelled ⊆ (h.step m parent op).cancelled := by
      cases op <;> exact List.subset_append_left _ _
    rcases List.mem_append.mp hw with hw | hw
    · exact hkept (hl.through w hw)
    · cases List.mem_singleton.mp hw
      exact List.mem_append_right _ (List.mem_singleton.mpr rfl)

theorem logs_run (m : Miner) (parent : Token) (ops : List Operation) (ts : Tokens) :
    Logs m parent ops (run m parent ops ts) := by
  induction ops using List.reverseRecOn with
  | nil => exact ⟨nofun, nofun⟩
  | append_singleton ops op ih =>
    rw [run_concat]
    exact ih.step op

/-- the token is cancelled if it was so from the beginning, or if it or one above it has been
cancelled by name since -/
def Tells (h : History) (ts : Tokens) (t : Token) : Prop :=
  h.tokens.isCancelled t = true ↔ ts.isCancelled t = true ∨ ∃ c ∈ h.cancelled, c <:+ t

theorem Tells.step (hh : h.Tells ts t) (ht : m.token <:+ t → t = m.token) (op : Operation) :
    (h.step m parent op).Tells ts t := by
  have hlog (l : List Token) : (∃ c ∈ h.cancelled ++ l, c <:+ t) ↔
      (∃ c ∈ h.cancelled, c <:+ t) ∨ ∃ c ∈ l, c <:+ t := by
    simp only [List.mem_append, or_and_right, exists_or]
  unfold Tells at hh
  cases op with
  | cancel w =>
    show (h.tokens.cancel _).isCancelled t = true ↔ _ ∨ ∃ c ∈ h.cancelled ++ [_], c <:+ t
    rw [hlog, Tokens.isCancelled_cancel, Bool.or_eq_true, List.isSuffixOf_iff_suffix, hh]
    simp only [List.mem_singleton, exists_eq_left]
    rw [or_comm, or_assoc]
  | mine config refused s b =>
    have hcall := Miner.cancelsOnly_call ⟨config, m.token⟩ refused s h.tokens b
    show (Miner.call _ refused s h.tokens b).tokens.isCancelled t = true ↔
      _ ∨ ∃ c ∈ h.cancelled ++ _, c <:+ t
    rw [hlog, hcall.isCancelled_iff ht, hh, or_assoc]

/-- **What has been cancelled by name is all that counts**, for every token that is not below the
miner's. -/
theorem isCancelled_run (ht : m.token <:+ t → t = m.token) (ops : List Operation) :
    (run m parent ops ts).Tells ts t := by
  induction ops using List.reverseRecOn with
  | nil => simp [Tells, run]
  | append_singleton ops op ih =>
    rw [run_concat]
    exact ih.step ht op

end History

namespace Miner

/-- **Cancellation goes down and not up.**  A miner is made below a token, and then any operations
are carried out.  What has been cancelled by name since is what they cancel through the miner, a
clone or the token above it, and what others cancel during calls.  The miner is cancelled exactly if
the token above it was cancelled from the beginning, or if the miner, a clone, that token or one
above it has been cancelled by name since.  The token above the miner is cancelled only if it was
cancelled itself or by one above it, so cancelling the miner leaves it alone.  And whatever call is
made next, with whatever outcome: if all its workers can be started it is what mining is; it hears
only of what others do; apart from this it cancels no token, the miner's own included, that is not
below the miner's; and if the miner is cancelled it says so, without a change to the block. -/
theorem cancellation_goes_down (config : Config) (parent : Token) (ts : Tokens)
    (hts : ∀ c ∈ ts.cancelled, ∀ n ∈ c, n < ts.made) (ops : List Operation) :
    let m := (create config parent ts).1
    let h := History.run m parent ops (create config parent ts).2
    h.Logs m parent ops ∧
    (h.tokens.isCancelled m.token = true ↔
      ts.isCancelled parent = true ∨ ∃ c ∈ h.cancelled, c = m.token ∨ c <:+ parent) ∧
    (h.tokens.isCancelled parent = true ↔
      ts.isCancelled parent = true ∨ ∃ c ∈ h.cancelled, c <:+ parent) ∧
    (h.tokens.cancel m.token).isCancelled parent = h.tokens.isCancelled parent ∧
    ∀ (config' : Config) (refused : Nat → Bool) (s : Surroundings) (b : Block),
      let caller : Miner := ⟨config', m.token⟩
      let call := caller.call refused s h.tokens b
      ((∀ k, refused k = false) → call = (caller.mine s h.tokens b).toCall call.heard) ∧
      (∀ c ∈ call.heard, s.Cancels c) ∧
      (∀ t, (m.token <:+ t → t = m.token) → (call.tokens.isCancelled t = true ↔
        h.tokens.isCancelled t = true ∨ ∃ c ∈ call.heard, c <:+ t)) ∧
      (h.tokens.isCancelled m.token = true → 0 < config'.workers → 0 < config'.maxRetries →
        call.result = .error (.fault .cancelled) ∧ call.block = b) := by
  intro m h
  have htoken : m.token = ts.made :: parent := rfl
  have hparent : ¬ m.token <:+ parent := by
    intro hsuf
    have hle := hsuf.length_le
    rw [htoken, List.length_cons] at hle
    omega
  have hown : h.Tells (create config parent ts).2 m.token :=
    History.isCancelled_run (fun _ => rfl) ops
  have habove : h.Tells (create config parent ts).2 parent :=
    History.isCancelled_run (fun hsuf => absurd hsuf hparent) ops
  refine ⟨History.logs_run m parent ops _, ?_, habove, ?_, ?_⟩
  · refine hown.trans (or_congr (isCancelled_create hts) ?_)
    simp only [htoken, List.suffix_cons_iff]
  · rw [Tokens.isCancelled_cancel, Bool.eq_false_iff.mpr (mt List.isSuffixOf_iff_suffix.mp hparent),
      Bool.false_or]
  · intro config' refused s b caller call
    have honly := cancelsOnly_call caller refused s h.tokens b
    exact ⟨fun hno => call_of_not_refused hno caller h.tokens b, honly.others,
      fun t ht => honly.isCancelled_iff ht,
      fun hc hw hr => call_of_cancelled caller refused s h.tokens b hw hr hc⟩

/-- two workers for three nonces -/
def pair : Config := ⟨1, 2, 1, 2⟩

/-- a miner seals a block while a token next to its own is cancelled; then its clone is cancelled -/
def sealedThenCancelled : List Operation :=
  [.mine pair (fun _ => false)
      ⟨fun _ => [], fun _ => [.work 1, .cancel [1, 0], .arrive 1], fun _ => .epoch⟩ Block.genesis,
    .cancel .clone]

theorem cancellation_goes_down_clone :
    let m := (create pair [0] ⟨{}, 2⟩).1
    let ts := (create pair [0] ⟨{}, 2⟩).2
    let first := History.run m [0] (sealedThenCancelled.take 1) ts
    let both := History.run m [0] sealedThenCancelled ts
    (∀ c ∈ (⟨{}, 2⟩ : Tokens).cancelled, ∀ n ∈ c, n < 2) ∧
      first.cancelled = [[1, 0]] ∧ first.tokens.isCancelled m.token = false ∧
      both.tokens.isCancelled m.token = true ∧ both.tokens.isCancelled [0] = false ∧
      ∀ s, (m.call (fun _ => true) s both.tokens Block.genesis).result
          = .error (.fault .cancelled) ∧
        (m.call (fun _ => true) s both.tokens Block.genesis).block = Block.genesis := by
  intro m ts first both
  have hts : ∀ c ∈ (⟨{}, 2⟩ : Tokens).cancelled, ∀ n ∈ c, n < 2 := by
    intro c hc
    simp at hc
  have hlog : first.cancelled = [[1, 0]] ∧ both.cancelled = [[1, 0], [2, 0]] := by
    decide +kernel
  have hfresh : (⟨{}, 2⟩ : Tokens).isCancelled [0] = false := by decide +kernel
  obtain ⟨-, hfirst, -⟩ := cancellation_goes_down pair [0] ⟨{}, 2⟩ hts (sealedThenCancelled.take 1)
  obtain ⟨-, hown, habove, -, hcall⟩ :=
    cancellation_goes_down pair [0] ⟨{}, 2⟩ hts sealedThenCancelled
  have hlive : ¬ first.tokens.isCancelled m.token = true := by
    rw [hfirst, hfresh, hlog.1]
    decide
  have hcancelled : both.tokens.isCancelled m.token = true :=
    hown.mpr (.inr ⟨[2, 0], by rw [hlog.2]; simp, .inl rfl⟩)
  have hparent : ¬ both.tokens.isCancelled [0] = true := by
    rw [habove, hfresh, hlog.2]
    decide
  refine ⟨hts, hlog.1, Bool.eq_false_iff.mpr hlive, hcancelled, Bool.eq_false_iff.mpr hparent, ?_⟩
  intro s
  exact (hcall pair (fun _ => true) s Block.genesis).2.2.2 hcancelled (by decide) (by decide)

end Miner

end ChunkLedger.Mining
