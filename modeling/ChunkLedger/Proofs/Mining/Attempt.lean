import ChunkLedger.Proofs.Mining.Race
import Mathlib.Data.List.Perm.Basic

/-!
# The result of an attempt

`x.Right t tried cancelled` says what the result `x` of a race over the task `t` has to mean, when
the nonces `tried` have been hashed and the miner's token is cancelled or not.  Every race that has
its token for itself (`Private`) comes to a result, and to a right one (`run_right`); it is
determined by the task alone whether it can be anything but `found` (`result_run`).
-/

namespace ChunkLedger.Mining

/-- the result says what is the case -/
def Result.Right (t : Task) (tried : List UInt64) (cancelled : Bool) : Result → Prop
  | .found w n h => w < t.stride ∧ n ≤ t.limit ∧ n.toNat % t.stride = w ∧
      h = t.block.hashWithNonce n ∧ h.toNat ≤ t.target ∧
      ∀ m < n, m.toNat % t.stride = w → t.qualifies m = false
  | .exhausted => (∀ n ≤ t.limit, t.qualifies n = false) ∧
      (tried.map UInt64.toNat).Perm (List.range (t.limit.toNat + 1))
  | .cancelled => cancelled = true

namespace Race

/-! ## what the reports say -/

section
variable {t : Task} {C : Prop} {arrived : List (Nat × Report)} {r : Race}

theorem mem_row {w : Nat} {n : UInt64} :
    n ∈ r.row t w ↔ n ∈ r.tried ∧ n.toNat % t.stride = w := by
  simp [row]

/-- no nonce is tried twice -/
theorem Inv.nodup_tried (h : r.Inv t C arrived) : r.tried.Nodup := by
  have hrow (w : Nat) (hw : w < t.stride) : (r.row t w).Nodup := by
    have hlt : w < r.workers.length := by rw [h.length]; exact hw
    have hv := h.holds w _ (List.getElem?_eq_getElem hlt)
    cases hx : r.workers[w] with
    | running n => rw [hx] at hv; exact Task.At.nodup hv
    | reporting report => rw [hx] at hv; exact Task.At.nodup hv
    | done =>
      rw [hx] at hv
      obtain ⟨e, he, rfl⟩ := List.mem_map.mp hv
      exact (h.told e he).2.nodup
  rw [List.nodup_iff_count_le_one]
  intro n
  have hn := List.nodup_iff_count_le_one.mp (hrow _ (Nat.mod_lt n.toNat t.stride_pos)) n
  rwa [row, List.count_filter (by simp)] at hn

/-- if every worker is exhausted all nonces up to the limit have been tried, and in vain -/
theorem Inv.mem_tried_iff (h : r.Inv t C arrived) (hlen : arrived.length = t.stride)
    (hall : ∀ e ∈ arrived, e.2 = .exhausted) (n : UInt64) :
    (n ∈ r.tried ↔ n ≤ t.limit) ∧ (n ≤ t.limit → t.qualifies n = false) := by
  -- the reports are those of all workers
  have hmem : n.toNat % t.stride ∈ arrived.map Prod.fst := by
    have hsub : arrived.map Prod.fst ⊆ List.range t.stride := by
      intro w hw
      obtain ⟨e, he, rfl⟩ := List.mem_map.mp hw
      exact List.mem_range.mpr (h.lt_stride (h.told e he).1)
    have hperm : (arrived.map Prod.fst).Perm (List.range t.stride) :=
      (List.subperm_of_subset h.once hsub).perm_of_length_le (by simp [hlen])
    exact hperm.mem_iff.mpr (List.mem_range.mpr (Nat.mod_lt _ t.stride_pos))
  obtain ⟨e, he, hw⟩ := List.mem_map.mp hmem
  obtain ⟨hd, hat⟩ := h.told e he
  rw [hall e he] at hat
  obtain ⟨hrow, hvain⟩ := hat.of_exhausted (h.lt_stride hd) hw.symm
  rw [mem_row, and_iff_left hw.symm] at hrow
  exact ⟨hrow, hvain⟩

theorem perm_range_of_mem_iff {l : List UInt64} {limit : UInt64} (hnd : l.Nodup)
    (hmem : ∀ n, n ∈ l ↔ n ≤ limit) :
    (l.map UInt64.toNat).Perm (List.range (limit.toNat + 1)) := by
  have hinj : Function.Injective UInt64.toNat := fun _ _ => UInt64.toNat_inj.mp
  rw [List.perm_ext_iff_of_nodup (hnd.map hinj) List.nodup_range]
  intro k
  rw [List.mem_map, List.mem_range]
  constructor
  · rintro ⟨n, hn, rfl⟩
    exact Nat.lt_succ_of_le (UInt64.le_iff_toNat_le.mp ((hmem n).mp hn))
  · intro hk
    have e := toNat_ofNat_of_le (Nat.le_of_lt_succ hk)
    exact ⟨.ofNat k, (hmem _).mpr (UInt64.le_iff_toNat_le.mpr (by omega)), e⟩

/-- the result of a race is right -/
theorem Inv.right {cancelled : Bool} (h : r.Inv t (cancelled = true) arrived) {x : Result}
    (hx : r.result = some x) : x.Right t r.tried cancelled := by
  have hv := h.verdict
  rw [Verdict, hx] at hv
  cases x with
  | found w n d =>
    obtain ⟨hd, hat⟩ := h.told _ hv
    have hw := h.lt_stride hd
    obtain ⟨hr, hle, rfl, hq, hleast⟩ := hat.of_found hw
    exact ⟨hw, hle, hr, rfl, Task.qualifies_iff.mp hq, hleast⟩
  | exhausted =>
    obtain ⟨hlen, hall⟩ := hv
    have hm := h.mem_tried_iff hlen hall
    exact ⟨fun n => (hm n).2, perm_range_of_mem_iff h.nodup_tried fun n => (hm n).1⟩
  | cancelled =>
    obtain ⟨e, he, hc⟩ := hv
    have hat := (h.told e he).2
    rw [hc] at hat
    exact hat.of_cancelled

end

/-! ## runs -/

/-- the token of the race is its own: it is new, and no event cancels it or one below it -/
structure Private (token : Token) (events : List Event) (ts : Tokens) : Prop where
  fresh : ∀ c ∈ ts.cancelled, ¬ (ts.child token).1 <:+ c
  kept : ∀ c, Event.cancel c ∈ events → ¬ (ts.child token).1 <:+ c

/-- a race has its token to itself if only tokens are cancelled that were made before -/
theorem Private.of_made {token : Token} {events : List Event} {ts : Tokens}
    (hts : ∀ c ∈ ts.cancelled, ∀ n ∈ c, n < ts.made)
    (hev : ∀ c, Event.cancel c ∈ events → ∀ n ∈ c, n < ts.made) : Private token events ts := by
  have hnew (c : Token) (hc : ∀ n ∈ c, n < ts.made) : ¬ (ts.child token).1 <:+ c := by
    intro hsuf
    exact Nat.lt_irrefl _ (hc _ (hsuf.subset List.mem_cons_self))
  exact ⟨fun c hc => hnew c (hts c hc), fun c hc => hnew c (hev c hc)⟩

/-- events cancel what they say and nothing else -/
theorem mem_cancelled_foldl (t : Task) (own : Token) (events : List Event) (r : Race) (ts : Tokens)
    (c : Token) :
    c ∈ (events.foldl (step t own) (r, ts)).2.cancelled ↔
      c ∈ ts.cancelled ∨ Event.cancel c ∈ events := by
  induction events generalizing r ts with
  | nil => simp
  | cons e events ih =>
    rw [List.foldl_cons, ih]
    cases e with
    | work w => simp [step]
    | arrive w => simp [step]
    | cancel d =>
      rw [List.mem_cons, Event.cancel.injEq, or_left_comm, ← or_assoc, step,
        Tokens.mem_cancelled_cancel, eq_comm]

theorem isCancelled_foldl (t : Task) (own : Token) (events : List Event) (r : Race) (ts : Tokens)
    (c : Token) :
    (events.foldl (step t own) (r, ts)).2.isCancelled c = true ↔
      ts.isCancelled c = true ∨ ∃ d, Event.cancel d ∈ events ∧ d <:+ c := by
  simp only [Tokens.isCancelled_iff, mem_cancelled_foldl, or_and_right, exists_or]

theorem not_child_suffix (ts : Tokens) (token : Token) : ¬ (ts.child token).1 <:+ token := by
  intro h
  have hle := h.length_le
  rw [Tokens.child, List.length_cons] at hle
  omega

/-- a race that is over has not cancelled the miner's token -/
theorem isCancelled_run (t : Task) (token : Token) (events : List Event) (ts : Tokens) :
    (run t token events ts).2.isCancelled token = true ↔
      ts.isCancelled token = true ∨ ∃ d, Event.cancel d ∈ events ∧ d <:+ token := by
  have h := isCancelled_foldl t (ts.child token).1 events (start t) (ts.child token).2 token
  rw [Tokens.isCancelled_child] at h
  rw [← h]
  show (Tokens.cancel _ (ts.child token).1).isCancelled token = true ↔ _
  rw [Tokens.isCancelled_cancel, Bool.or_eq_true, List.isSuffixOf_iff_suffix]
  exact or_iff_right (not_child_suffix ts token)

theorem mem_cancelled_run {t : Task} {token : Token} {events : List Event} {ts : Tokens} {c : Token} :
    c ∈ (run t token events ts).2.cancelled ↔
      (ts.child token).1 = c ∨ c ∈ ts.cancelled ∨ Event.cancel c ∈ events := by
  show c ∈ (Tokens.cancel _ (ts.child token).1).cancelled ↔ _
  rw [Tokens.mem_cancelled_cancel, mem_cancelled_foldl, Tokens.child]

theorem made_foldl (t : Task) (own : Token) (events : List Event) (r : Race) (ts : Tokens) :
    (events.foldl (step t own) (r, ts)).2.made = ts.made := by
  induction events generalizing r ts with
  | nil => rfl
  | cons e events ih =>
    rw [List.foldl_cons, ih]
    cases e <;> rfl

/-- a race makes one token below that of the miner -/
theorem made_run (t : Task) (token : Token) (events : List Event) (ts : Tokens) :
    (run t token events ts).2.made = ts.made + 1 :=
  made_foldl t (ts.child token).1 events (start t) (ts.child token).2

/-- whatever is above a worker's token is above the miner's, or it is at or below that of the race -/
theorem suffix_of_suffix_worker {ts : Tokens} {token c : Token} {w : Nat}
    (hown : ¬ (ts.child token).1 <:+ c) (h : c <:+ w :: (ts.child token).1) : c <:+ token := by
  rcases List.suffix_cons_iff.mp h with rfl | h
  · exact absurd (List.suffix_cons w _) hown
  · rcases List.suffix_cons_iff.mp h with rfl | h
    · exact absurd List.suffix_rfl hown
    · exact h

theorem Private.heard {t : Task} {token : Token} {events : List Event} {ts : Tokens}
    (h : Private token events ts) :
    Heard ((run t token events ts).2.isCancelled token = true) (ts.child token).1 events
      (ts.child token).2 := by
  refine ⟨?_, ?_⟩
  · intro w hw
    rw [Tokens.isCancelled_child] at hw
    obtain ⟨c, hc, hsuf⟩ := Tokens.isCancelled_iff.mp hw
    have hc' := suffix_of_suffix_worker (h.fresh c hc) hsuf
    exact (isCancelled_run ..).mpr (.inl (Tokens.isCancelled_iff.mpr ⟨c, hc, hc'⟩))
  · intro c hc w hsuf
    have hc' := suffix_of_suffix_worker (h.kept c hc) hsuf
    exact (isCancelled_run ..).mpr (.inr ⟨c, hc, hc'⟩)

/-- every race comes to a result, and to a right one; `cancelled` is whatever the workers of the race
have to have heard before they give up -/
theorem exists_right {t : Task} {token : Token} {events : List Event} {ts : Tokens}
    {cancelled : Bool}
    (h : Heard (cancelled = true) (ts.child token).1 events (ts.child token).2) :
    ∃ x, (run t token events ts).1.result = some x ∧
      x.Right t (run t token events ts).1.tried cancelled := by
  obtain ⟨arrived, hinv, hheard⟩ := (Inv.start t _).foldl h
  have hsome := hinv.isSome_result_finish (List.range t.stride) hheard
    fun w hw => .inl (List.mem_range.mpr hw)
  obtain ⟨more, hno, hmore⟩ := finish_eq_foldl t (ts.child token).1
    (events.foldl (step t (ts.child token).1) (start t, (ts.child token).2)).2 (List.range t.stride)
    (events.foldl (step t (ts.child token).1) (start t, (ts.child token).2)).1
  have hquiet : Heard _ (ts.child token).1 more _ := ⟨hheard.1, fun c hc => absurd hc (hno c)⟩
  obtain ⟨arrived', hfin, -⟩ := hinv.foldl hquiet
  rw [hmore] at hfin
  obtain ⟨x, hx⟩ := Option.isSome_iff_exists.mp hsome
  exact ⟨x, hx, hfin.right hx⟩

theorem run_right {t : Task} {token : Token} {events : List Event} {ts : Tokens}
    (h : Private token events ts) :
    ∃ x, (run t token events ts).1.result = some x ∧
      x.Right t (run t token events ts).1.tried ((run t token events ts).2.isCancelled token) :=
  exists_right h.heard

/-- **An attempt is right under every interleaving.**  It comes to a result whatever the events and
their order; the result says what is the case; and if the miner's token is not cancelled, the task
alone decides between `exhausted` and `found`. -/
theorem result_run {t : Task} {token : Token} {events : List Event} {ts : Tokens}
    (h : Private token events ts) :
    ∃ x, (run t token events ts).1.result = some x ∧
      x.Right t (run t token events ts).1.tried ((run t token events ts).2.isCancelled token) ∧
      ((run t token events ts).2.isCancelled token = false →
        ((∀ n ≤ t.limit, t.qualifies n = false) → x = .exhausted) ∧
        ((∃ n ≤ t.limit, t.qualifies n = true) → ∃ w n d, x = .found w n d)) := by
  obtain ⟨x, hx, hr⟩ := run_right (t := t) h
  refine ⟨x, hx, hr, ?_⟩
  intro hlive
  cases x with
  | found w n d =>
    obtain ⟨-, hle, -, rfl, hq, -⟩ := hr
    refine ⟨fun hno => ?_, fun _ => ⟨w, n, _, rfl⟩⟩
    have hf := hno n hle
    rw [Task.qualifies_iff.mpr hq] at hf
    cases hf
  | exhausted =>
    refine ⟨fun _ => rfl, ?_⟩
    rintro ⟨n, hle, hq⟩
    rw [hr.1 n hle] at hq
    cases hq
  | cancelled =>
    rw [show _ = true from hr] at hlive
    cases hlive

/-- three nonces for two workers, none of which can qualify -/
def threeNonces : Task := ⟨Block.genesis, 0, 2, by decide, 2⟩

/-- the second worker is ahead; a token next to that of the miner is cancelled -/
def someEvents : List Event := [.work 1, .arrive 1, .cancel [1], .work 0]

theorem result_run_threeNonces :
    Private [0] someEvents ⟨{}, 2⟩ ∧
      (run threeNonces [0] someEvents ⟨{}, 2⟩).1.result = some .exhausted ∧
      ((run threeNonces [0] someEvents ⟨{}, 2⟩).1.tried.map UInt64.toNat).Perm [0, 1, 2] := by
  have hp : Private [0] someEvents ⟨{}, 2⟩ := by
    apply Private.of_made
    · intro c hc
      simp at hc
    · intro c hc
      obtain rfl : c = [1] := by simpa [someEvents] using hc
      decide
  have he : (run threeNonces [0] someEvents ⟨{}, 2⟩).1.result = some .exhausted := by
    decide +kernel
  obtain ⟨x, hx, hr, -⟩ := result_run (t := threeNonces) hp
  obtain rfl : Result.exhausted = x := Option.some.inj (he.symm.trans hx)
  exact ⟨hp, he, hr.2⟩

end Race

end ChunkLedger.Mining
