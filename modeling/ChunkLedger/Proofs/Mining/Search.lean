import ChunkLedger.Proofs.Mining.Share
import Mathlib.Logic.Function.Iterate

/-!
# One worker's search from its start to its end

A worker's row is made of the numbers `w`, `w + stride`, `w + 2 * stride`, ... within the limit
(`t.values w`); as numbers they cannot wrap around.  The search is a loop: in each round it looks
whether it has been cancelled, hashes with one nonce and goes on to the next (`t.round`).  A round
changes nothing about what the search comes to (`Loop.outcome_round`), and keeps what is known of
the loop (`Loop.Sound.round`): the nonces hashed are the first ones of the row, all looks before
were answered with no, and the loop is at a place that its row allows.

After as many rounds as the row has values the loop has stopped (`Loop.stopped_of_rounds`), and from
what is known of it then follows which report it makes (`search_exact`).
-/

namespace ChunkLedger.Mining

namespace Task

variable {t : Task} {C : Prop} {w : Nat} {l : List UInt64} {n : UInt64}

/-! ## the values of a row -/

/-- how many values row `w` has within the limit -/
def valueCount (t : Task) (w : Nat) : Nat :=
  if w ≤ t.limit.toNat then (t.limit.toNat - w) / t.stride + 1 else 0

/-- the values of row `w` within the limit, in order -/
def values (t : Task) (w : Nat) : List Nat :=
  (List.range (t.valueCount w)).map fun k => w + k * t.stride

theorem lt_valueCount_iff {k : Nat} :
    k < t.valueCount w ↔ w + k * t.stride ≤ t.limit.toNat := by
  unfold valueCount
  split
  · rw [Nat.lt_succ_iff, Nat.le_div_iff_mul_le t.stride_pos]
    omega
  · omega

@[simp] theorem length_values (t : Task) (w : Nat) : (t.values w).length = t.valueCount w := by
  simp [values]

theorem mem_values {v : Nat} :
    v ∈ t.values w ↔ v ≤ t.limit.toNat ∧ ∃ k, v = w + k * t.stride := by
  simp only [values, List.mem_map, List.mem_range, lt_valueCount_iff]
  constructor
  · rintro ⟨k, hk, rfl⟩
    exact ⟨hk, k, rfl⟩
  · rintro ⟨hv, k, rfl⟩
    exact ⟨k, hv, rfl⟩

theorem values_increasing (t : Task) (w : Nat) : (t.values w).Pairwise (· < ·) := by
  refine List.pairwise_lt_range.map _ fun i j hij => ?_
  exact Nat.add_lt_add_left (Nat.mul_lt_mul_of_pos_right hij t.stride_pos) w

/-- nonces that are the first ones of their row -/
theorem prefix_values (h : l.reverse.map UInt64.toNat = (List.range l.length).map
    fun k => w + k * t.stride) (hle : l.length ≤ t.valueCount w) :
    l.reverse.map UInt64.toNat <+: t.values w := by
  have htake : (t.values w).take l.length = l.reverse.map UInt64.toNat := by
    rw [values, ← List.map_take, List.take_range, Nat.min_eq_left hle, h]
  rw [← htake]
  exact List.take_prefix _ _

theorem InVain.length_le (h : t.InVain w l) : l.length ≤ t.valueCount w := by
  cases l with
  | nil => exact Nat.zero_le _
  | cons n l =>
    obtain ⟨hn, hle, -, -⟩ := h
    have hlt := lt_valueCount_iff.mpr (hn ▸ UInt64.le_iff_toNat_le.mp hle)
    exact hlt

/-! ## rounds -/

/-- The loop of a search between two rounds: how often it has looked, the nonces hashed, last first,
and where it is. -/
structure Loop where
  looks : Nat
  tried : List UInt64
  progress : Progress

/-- one round: a look, and a hash unless the answer was that the worker has been cancelled -/
def round (t : Task) (answers : Nat → Bool) : Loop → Loop
  | ⟨i, tried, .next n⟩ =>
    if answers i then ⟨i + 1, tried, .stopped .cancelled⟩ else ⟨i + 1, n :: tried, t.probe n⟩
  | s => s

/-- the loop of a worker of row `w` before its first round -/
def Loop.start (t : Task) (w : Nat) : Loop := ⟨0, [], t.start w⟩

/-- what the search comes to from here -/
def Loop.outcome (t : Task) (answers : Nat → Bool) : Loop → List UInt64 × Report
  | ⟨i, tried, .next n⟩ => t.search answers i tried n
  | ⟨_, tried, .stopped r⟩ => (tried, r)

/-- what is known of the loop of a worker of row `w`: what it has hashed, and what it has been told
before each hash and, if it gave up, at its last look -/
structure Loop.Sound (t : Task) (answers : Nat → Bool) (w : Nat) (s : Loop) : Prop where
  place : t.At (answers s.tried.length = true ∧ s.tried.length < t.valueCount w) w s.tried
    s.progress
  told : ∀ i < s.tried.length, answers i = false
  looks : ∀ n, s.progress = .next n → s.looks = s.tried.length

section
variable {answers : Nat → Bool} {s : Loop}

theorem Loop.outcome_start (t : Task) (answers : Nat → Bool) (w : Nat) :
    (Loop.start t w).outcome t answers = t.searchFrom answers [] (t.start w) := by
  unfold Loop.start Loop.outcome searchFrom
  cases t.start w <;> rfl

theorem Loop.outcome_round (t : Task) (answers : Nat → Bool) (s : Loop) :
    (t.round answers s).outcome t answers = s.outcome t answers := by
  obtain ⟨i, tried, p⟩ := s
  cases p with
  | stopped r => rfl
  | next n =>
    show (t.round answers ⟨i, tried, .next n⟩).outcome t answers = t.search answers i tried n
    rw [search, round]
    split
    · rfl
    · split
      · rename_i h
        rw [h]
        rfl
      · rename_i h
        rw [h]
        rfl

theorem Loop.Sound.start (t : Task) (answers : Nat → Bool) (w : Nat) :
    (Loop.start t w).Sound t answers w where
  place := t.at_start _ w
  told i hi := absurd hi (Nat.not_lt_zero i)
  looks _ _ := rfl

/-- a nonce that is to be hashed next belongs to the row -/
theorem Loop.Sound.lt_valueCount (h : s.Sound t answers w) (hn : s.progress = .next n) :
    s.tried.length < t.valueCount w := by
  have hplace := h.place
  rw [hn] at hplace
  obtain ⟨-, e, hle⟩ := hplace.of_next
  exact lt_valueCount_iff.mpr (e ▸ UInt64.le_iff_toNat_le.mp hle)

/-- **A round keeps what is known.** -/
theorem Loop.Sound.round (h : s.Sound t answers w) : (t.round answers s).Sound t answers w := by
  obtain ⟨i, tried, p⟩ := s
  cases p with
  | stopped r => exact h
  | next n =>
    obtain rfl : i = tried.length := h.looks n rfl
    obtain ⟨hvain, e, hle⟩ := h.place.of_next
    unfold Task.round
    simp only
    split
    · rename_i hanswer
      exact ⟨.cancelled hvain ⟨hanswer, h.lt_valueCount rfl⟩, h.told, nofun⟩
    · rename_i hanswer
      refine ⟨At.probe (.next hvain e hle), ?_, fun _ _ => rfl⟩
      intro j hj
      rcases Nat.lt_succ_iff_lt_or_eq.mp hj with hj | rfl
      · exact h.told j hj
      · exact Bool.eq_false_iff.mpr hanswer

/-- what a round keeps, any number of them keeps -/
theorem Loop.Sound.rounds (h : s.Sound t answers w) (k : Nat) :
    ((t.round answers)^[k] s).Sound t answers w := by
  induction k with
  | zero => exact h
  | succ k ih =>
    rw [Function.iterate_succ_apply']
    exact ih.round

theorem Loop.outcome_rounds (t : Task) (answers : Nat → Bool) (s : Loop) (k : Nat) :
    ((t.round answers)^[k] s).outcome t answers = s.outcome t answers := by
  induction k with
  | zero => rfl
  | succ k ih => rw [Function.iterate_succ_apply', Loop.outcome_round, ih]

/-- every round but the last hashes with one nonce -/
theorem Loop.length_tried_rounds (t : Task) (answers : Nat → Bool) (w k : Nat) :
    ((t.round answers)^[k] (Loop.start t w)).tried.length = k ∨
      ∃ r, ((t.round answers)^[k] (Loop.start t w)).progress = .stopped r := by
  induction k with
  | zero => exact .inl rfl
  | succ k ih =>
    rw [Function.iterate_succ_apply']
    generalize (t.round answers)^[k] (Loop.start t w) = s at ih
    obtain ⟨i, tried, p⟩ := s
    cases p with
    | stopped r => exact .inr ⟨r, rfl⟩
    | next n =>
      obtain rfl : tried.length = k := ih.resolve_right nofun
      unfold Task.round
      simp only
      split
      · exact .inr ⟨_, rfl⟩
      · exact .inl rfl

/-- **The loop ends.**  It takes no more rounds than the row has values. -/
theorem Loop.stopped_of_rounds (t : Task) (answers : Nat → Bool) (w : Nat) :
    ∃ looks, (t.round answers)^[t.valueCount w] (Loop.start t w)
      = ⟨looks, (t.searchFrom answers [] (t.start w)).1,
          .stopped (t.searchFrom answers [] (t.start w)).2⟩ := by
  have hout := Loop.outcome_rounds t answers (Loop.start t w) (t.valueCount w)
  have hsound := (Loop.Sound.start t answers w).rounds (t.valueCount w)
  have hlength := Loop.length_tried_rounds t answers w (t.valueCount w)
  rw [Loop.outcome_start] at hout
  generalize (t.round answers)^[t.valueCount w] (Loop.start t w) = s at hout hsound hlength
  obtain ⟨i, tried, p⟩ := s
  cases p with
  | next n =>
    have hlt := hsound.lt_valueCount rfl
    have hall : tried.length = t.valueCount w := hlength.resolve_right nofun
    exact absurd hall (Nat.ne_of_lt hlt)
  | stopped r =>
    rw [← hout]
    exact ⟨i, rfl⟩

/-! ## reports -/

/-- what a worker that has stopped reports, and what it has hashed by then -/
theorem Loop.Sound.report_cases {looks : Nat} {report : Report}
    (h : Loop.Sound t answers w ⟨looks, l, .stopped report⟩) :
    (∃ n earlier, report = .found n (t.block.hashWithNonce n) ∧ l = n :: earlier ∧
      t.qualifies n = true ∧ t.InVain w earlier) ∨
    (report = .exhausted ∧ t.InVain w l ∧ l.length = t.valueCount w) ∨
    (report = .cancelled ∧ t.InVain w l ∧ l.length < t.valueCount w ∧
      answers l.length = true) := by
  cases h.place with
  | found hvain _ _ hq => exact .inl ⟨_, _, rfl, rfl, hq, hvain⟩
  | exhausted hvain hlt =>
    have hge := mt lt_valueCount_iff.mp (Nat.not_le_of_lt hlt)
    exact .inr (.inl ⟨rfl, hvain, Nat.le_antisymm hvain.length_le (Nat.not_lt.mp hge)⟩)
  | cancelled hvain hc => exact .inr (.inr ⟨rfl, hvain, hc.2, hc.1⟩)

theorem Loop.Sound.prefix_values (h : s.Sound t answers w) :
    s.tried.reverse.map UInt64.toNat <+: t.values w := by
  obtain ⟨i, tried, p⟩ := s
  cases h.place with
  | next hvain _ _ => exact Task.prefix_values hvain.map_toNat hvain.length_le
  | found hvain e hle _ =>
    have hlt := lt_valueCount_iff.mpr (e ▸ UInt64.le_iff_toNat_le.mp hle)
    exact Task.prefix_values (map_toNat_cons hvain.map_toNat e) hlt
  | exhausted hvain _ => exact Task.prefix_values hvain.map_toNat hvain.length_le
  | cancelled hvain _ => exact Task.prefix_values hvain.map_toNat hvain.length_le

/-- all digests that the nonces give are above the target -/
def AllMiss (t : Task) (l : List UInt64) : Prop :=
  ∀ n ∈ l, t.target < (t.block.hashWithNonce n).toNat

theorem InVain.allMiss (h : t.InVain w l) : t.AllMiss l := by
  intro n hn
  have hq := (h.of_mem hn).2
  rw [← Bool.not_eq_true, qualifies_iff] at hq
  exact Nat.lt_of_not_le hq

/-- when a worker of row `w` that has hashed with `tried`, last first, may make a report -/
def Warrants (t : Task) (answers : Nat → Bool) (w : Nat) (tried : List UInt64) : Report → Prop
  | .found n d => d = t.block.hashWithNonce n ∧ d.toNat ≤ t.target ∧
      ∃ earlier, tried = n :: earlier ∧ t.AllMiss earlier
  | .exhausted => tried.reverse.map UInt64.toNat = t.values w ∧ t.AllMiss tried
  | .cancelled => answers tried.length = true ∧ tried.length < (t.values w).length ∧
      t.AllMiss tried

theorem Warrants.not_allMiss {d : Digest} (h : t.Warrants answers w l (.found n d)) :
    ¬ t.AllMiss l := by
  obtain ⟨rfl, hle, earlier, rfl, -⟩ := h
  exact fun hmiss => Nat.not_le_of_lt (hmiss n List.mem_cons_self) hle

theorem not_exhausted_and_cancelled (h : t.Warrants answers w l .exhausted) :
    ¬ t.Warrants answers w l .cancelled := by
  rintro ⟨-, hlt, -⟩
  have hlength := congrArg List.length h.1
  rw [List.length_map, List.length_reverse] at hlength
  exact Nat.ne_of_lt hlt hlength

/-- no two reports may be made at once -/
theorem Warrants.unique {r r' : Report} (h : t.Warrants answers w l r)
    (h' : t.Warrants answers w l r') : r = r' := by
  cases r with
  | found n d =>
    cases r' with
    | found m e =>
      obtain ⟨rfl, -, earlier, rfl, -⟩ := h
      obtain ⟨rfl, -, earlier', heq, -⟩ := h'
      rw [(List.cons.inj heq).1]
    | exhausted => exact absurd h'.2 h.not_allMiss
    | cancelled => exact absurd h'.2.2 h.not_allMiss
  | exhausted =>
    cases r' with
    | found m e => exact absurd h.2 h'.not_allMiss
    | exhausted => rfl
    | cancelled => exact absurd h' (not_exhausted_and_cancelled h)
  | cancelled =>
    cases r' with
    | found m e => exact absurd h.2.2 h'.not_allMiss
    | exhausted => exact absurd h (not_exhausted_and_cancelled h')
    | cancelled => rfl

/-- a worker makes a report that it may make -/
theorem Loop.Sound.warrants {looks : Nat} {report : Report}
    (h : Loop.Sound t answers w ⟨looks, l, .stopped report⟩) : t.Warrants answers w l report := by
  rcases h.report_cases with ⟨n, earlier, rfl, rfl, hq, hvain⟩ | ⟨rfl, hvain, hlength⟩
    | ⟨rfl, hvain, hlt, hanswer⟩
  · exact ⟨rfl, qualifies_iff.mp hq, earlier, rfl, hvain.allMiss⟩
  · exact ⟨h.prefix_values.eq_of_length (by simp [hlength]), hvain.allMiss⟩
  · exact ⟨hanswer, by rwa [length_values], hvain.allMiss⟩

end

/-- **The search is exact for any start and any stride.**  It comes to its end within as many rounds
as there are values from the start on within the limit.  What it has hashed are the first of these
values, in order; every look before a hash was answered with no.  It reports a nonce exactly if that
is the last one hashed and the only one that will do; that nothing was found exactly if it has
hashed all values in vain; and that it was cancelled exactly if its last look was answered with yes,
with values left and none that would do among those before. -/
theorem search_exact (t : Task) (answers : Nat → Bool) (w : Nat) :
    let tried := (t.searchFrom answers [] (t.start w)).1
    let report := (t.searchFrom answers [] (t.start w)).2
    (∀ v, v ∈ t.values w ↔ v ≤ t.limit.toNat ∧ ∃ k, v = w + k * t.stride) ∧
    (t.values w).Pairwise (· < ·) ∧
    (∃ looks, (t.round answers)^[(t.values w).length] (Loop.start t w)
      = ⟨looks, tried, .stopped report⟩) ∧
    tried.reverse.map UInt64.toNat <+: t.values w ∧
    (∀ i < tried.length, answers i = false) ∧
    ∀ r, report = r ↔ t.Warrants answers w tried r := by
  intro tried report
  have hstop : ∃ looks, (t.round answers)^[t.valueCount w] (Loop.start t w)
      = ⟨looks, tried, .stopped report⟩ := Loop.stopped_of_rounds t answers w
  obtain ⟨looks, hlooks⟩ := hstop
  have hsound := (Loop.Sound.start t answers w).rounds (t.valueCount w)
  rw [hlooks] at hsound
  refine ⟨fun v => mem_values, values_increasing t w, ⟨looks, ?_⟩, hsound.prefix_values,
    hsound.told, fun r => ⟨?_, hsound.warrants.unique⟩⟩
  · rw [length_values]
    exact hlooks
  · rintro rfl
    exact hsound.warrants

/-- one step from the nonce 1 would lead past the last number of 64 bits -/
example : (⟨Block.genesis, 0, 0xffffffffffffffff, by decide, 0xffffffffffffffff⟩ : Task).searchFrom
    (fun _ => false) [] (.next 1) = ([1], .exhausted) := by decide +kernel

end Task

end ChunkLedger.Mining
