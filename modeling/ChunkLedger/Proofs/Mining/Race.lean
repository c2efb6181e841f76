import ChunkLedger.Mining.Race
import ChunkLedger.Proofs.Mining.Share
import Mathlib.Data.List.Nodup
import Mathlib.Data.List.Perm.Subperm

/-!
# What holds in every race

`r.Inv t C arrived` is what holds of a race `r` when the reports `arrived` have arrived, last first:
every worker is at a place of its own row of nonces, every report tells where its worker ended, and
the result, if there is one, is what the reports say (`Verdict`).  It holds at the start and after
every step (`Inv.start`, `Inv.step`), hence after all events in any order (`Inv.foldl`).

Bringing a race to its end is nothing but more steps (`finish_eq_foldl`), and enough of them
(`Inv.isSome_result_finish`).
-/

namespace ChunkLedger.Mining

/-- the worker `w`, which has tried the nonces `l`, is where its row allows, or its report is one of
those that have arrived -/
def Worker.Holds (t : Task) (C : Prop) (arrived : List (Nat × Report)) (w : Nat)
    (l : List UInt64) : Worker → Prop
  | .running n => t.At C w l (.next n)
  | .reporting report => t.At C w l (.stopped report)
  | .done => w ∈ arrived.map Prod.fst

theorem Worker.holds_ofProgress {t : Task} {C : Prop} {arrived : List (Nat × Report)} {w : Nat}
    {l : List UInt64} {p : Progress} (h : t.At C w l p) :
    (Worker.ofProgress p).Holds t C arrived w l := by
  cases p with
  | next n => exact h
  | stopped report => exact h

theorem Worker.Holds.cons {t : Task} {C : Prop} {arrived : List (Nat × Report)} {w : Nat}
    {l : List UInt64} {v : Worker} (h : v.Holds t C arrived w l) (e : Nat × Report) :
    v.Holds t C (e :: arrived) w l := by
  cases v with
  | running n => exact h
  | reporting report => exact h
  | done => exact List.mem_cons_of_mem _ h

namespace Race

/-- the nonces of row `w` that have been tried, last first -/
def row (t : Task) (w : Nat) (r : Race) : List UInt64 :=
  r.tried.filter fun n => n.toNat % t.stride = w

/-- the result and the counts are what the reports say -/
def Verdict (t : Task) (arrived : List (Nat × Report)) (r : Race) : Prop :=
  match r.result with
  | none => arrived.length < t.stride ∧ r.stopped = arrived.length ∧
      r.exhausted = arrived.countP (fun e => e.2 = .exhausted) ∧
      ∀ e ∈ arrived, e.2 = .exhausted ∨ e.2 = .cancelled
  | some (.found w n h) => (w, .found n h) ∈ arrived
  | some .exhausted => arrived.length = t.stride ∧ ∀ e ∈ arrived, e.2 = .exhausted
  | some .cancelled => ∃ e ∈ arrived, e.2 = .cancelled

structure Inv (t : Task) (C : Prop) (arrived : List (Nat × Report)) (r : Race) : Prop where
  length : r.workers.length = t.stride
  holds : ∀ (w : Nat) (v : Worker), r.workers[w]? = some v → v.Holds t C arrived w (r.row t w)
  told : ∀ e ∈ arrived, r.workers[e.1]? = some .done ∧
    t.At C e.1 (r.row t e.1) (.stopped e.2)
  once : (arrived.map Prod.fst).Nodup
  verdict : r.Verdict t arrived

section
variable {t : Task} {C : Prop} {arrived : List (Nat × Report)} {r : Race}

theorem Inv.start (t : Task) (C : Prop) : (start t).Inv t C [] where
  length := length_workers_start t
  holds w v h := by
    have hw : w < t.stride := by
      rw [← length_workers_start t]
      exact (List.getElem?_eq_some_iff.mp h).1
    have e : (Race.start t).workers[w]? = some (.ofProgress (t.start w)) := by
      show ((List.range t.stride).map _)[w]? = _
      rw [List.getElem?_map, List.getElem?_range hw]
      rfl
    obtain rfl : _ = v := Option.some.inj (e.symm.trans h)
    exact Worker.holds_ofProgress (t.at_start C w)
  told e he := nomatch he
  once := List.nodup_nil
  verdict := ⟨t.stride_pos, rfl, rfl, fun _ he => nomatch he⟩

theorem Inv.lt_stride (h : r.Inv t C arrived) {w : Nat} {v : Worker}
    (hw : r.workers[w]? = some v) : w < t.stride := by
  rw [← h.length]
  exact (List.getElem?_eq_some_iff.mp hw).1

/-! ## a worker's step -/

/-- the step of a worker changes nothing for the others -/
theorem Inv.set (h : r.Inv t C arrived) {w : Nat} {n : UInt64}
    (hw : r.workers[w]? = some (.running n)) {v : Worker} (tried : List UInt64)
    (hv : v.Holds t C arrived w (row t w { r with tried }))
    (hrow : ∀ u, u ≠ w → row t u { r with tried } = r.row t u) :
    Inv t C arrived { r with workers := r.workers.set w v, tried } where
  length := by
    show (r.workers.set w v).length = t.stride
    rw [List.length_set, h.length]
  holds u x hu := by
    by_cases e : u = w
    · subst e
      have hlt := (List.getElem?_eq_some_iff.mp hw).1
      have hu' : (r.workers.set u v)[u]? = some x := hu
      rw [List.getElem?_set_self hlt] at hu'
      cases hu'
      exact hv
    · have hu' : (r.workers.set w v)[u]? = some x := hu
      rw [List.getElem?_set_ne (Ne.symm e)] at hu'
      show x.Holds t C arrived u (row t u { r with tried })
      rw [hrow u e]
      exact h.holds u x hu'
  told e he := by
    obtain ⟨hd, hat⟩ := h.told e he
    -- a worker whose report has arrived is not running
    have hne : e.1 ≠ w := by
      intro e'
      rw [e', hw] at hd
      cases hd
    refine ⟨?_, ?_⟩
    · show (r.workers.set w v)[e.1]? = some .done
      rw [List.getElem?_set_ne (Ne.symm hne), hd]
    · show t.At C e.1 (row t e.1 { r with tried }) (.stopped e.2)
      rw [hrow e.1 hne]
      exact hat
  once := h.once
  verdict := h.verdict

theorem row_cons (n : UInt64) (w : Nat) :
    row t w { r with tried := n :: r.tried }
      = if n.toNat % t.stride = w then n :: r.row t w else r.row t w := by
  unfold row
  rw [List.filter_cons]
  simp only [decide_eq_true_eq]

theorem Inv.work (h : r.Inv t C arrived) {token : Token} {ts : Tokens} {w : Nat}
    (hc : ts.isCancelled (w :: token) = true → C) : (r.work t token ts w).Inv t C arrived := by
  unfold Race.work
  split
  · rename_i n hw
    have hat : t.At C w (r.row t w) (.next n) := h.holds w _ hw
    split
    · rename_i hcan
      exact h.set hw r.tried (hat.giveUp (hc hcan)) fun _ _ => rfl
    · have hn : n.toNat % t.stride = w :=
        (Task.row_iff (h.lt_stride hw)).mpr ⟨_, hat.of_next.2.1⟩
      refine h.set hw _ (Worker.holds_ofProgress ?_) fun u hu => ?_
      · rw [row_cons, if_pos hn]
        exact hat.probe
      · rw [row_cons, if_neg (fun e => hu (e.symm.trans hn))]
  · exact h

/-! ## the arrival of a report -/

/-- the arrival of a report changes nothing for the other workers -/
theorem Inv.report (h : r.Inv t C arrived) {w : Nat} {report : Report}
    (hw : r.workers[w]? = some (.reporting report)) {r' : Race}
    (hws : r'.workers = r.workers.set w .done) (htried : r'.tried = r.tried)
    (hv : r'.Verdict t ((w, report) :: arrived)) : r'.Inv t C ((w, report) :: arrived) := by
  have hrow (u : Nat) : r'.row t u = r.row t u := by
    unfold row
    rw [htried]
  have hlt := (List.getElem?_eq_some_iff.mp hw).1
  refine ⟨?_, ?_, ?_, ?_, hv⟩
  · rw [hws, List.length_set, h.length]
  · intro u x hu
    rw [hws] at hu
    rw [hrow]
    by_cases e : u = w
    · subst e
      rw [List.getElem?_set_self hlt] at hu
      cases hu
      exact List.mem_cons_self
    · rw [List.getElem?_set_ne (Ne.symm e)] at hu
      exact (h.holds u x hu).cons _
  · intro e he
    rw [hws, hrow]
    rcases List.mem_cons.mp he with rfl | he
    · exact ⟨List.getElem?_set_self hlt, h.holds w _ hw⟩
    · obtain ⟨hd, hat⟩ := h.told e he
      refine ⟨?_, hat⟩
      by_cases e' : e.1 = w
      · rw [e', List.getElem?_set_self hlt]
      · rw [List.getElem?_set_ne (Ne.symm e'), hd]
  · refine List.nodup_cons.mpr ⟨?_, h.once⟩
    intro hmem
    obtain ⟨e, he, e'⟩ := List.mem_map.mp hmem
    have hd := (h.told e he).1
    rw [e', hw] at hd
    cases hd

/-- the race is settled as the reports say when they are as many as the workers -/
theorem verdict_settle (hnone : r.result = none) (hlen : r.workers.length = t.stride)
    (hle : arrived.length ≤ t.stride) (hst : r.stopped = arrived.length)
    (hex : r.exhausted = arrived.countP fun e => e.2 = .exhausted)
    (hall : ∀ e ∈ arrived, e.2 = .exhausted ∨ e.2 = .cancelled) :
    r.settle.Verdict t arrived := by
  unfold settle
  split
  · rename_i heq
    have hfull : arrived.length = t.stride := by rw [← hst, heq, hlen]
    by_cases hx : r.exhausted = r.workers.length
    · rw [if_pos hx]
      have hcount := hex.symm.trans (hx.trans (hlen.trans hfull.symm))
      refine ⟨hfull, ?_⟩
      intro e he
      exact of_decide_eq_true (List.countP_eq_length.mp hcount e he)
    · rw [if_neg hx]
      show ∃ e ∈ arrived, e.2 = .cancelled
      by_contra hno
      apply hx
      rw [hex, hlen, ← hfull, List.countP_eq_length]
      intro e he
      rcases hall e he with h | h
      · exact decide_eq_true h
      · exact absurd ⟨e, he, h⟩ hno
  · rename_i hne
    unfold Verdict
    rw [hnone]
    refine ⟨?_, hst, hex, hall⟩
    rw [hst, hlen] at hne
    omega

/-- the arrival of a report that nothing was found -/
theorem Inv.settle (h : r.Inv t C arrived) {w : Nat} {report : Report}
    (hw : r.workers[w]? = some (.reporting report)) (hnone : r.result = none)
    (hreport : report = .exhausted ∨ report = .cancelled) {r' : Race}
    (hws : r'.workers = r.workers.set w .done) (htried : r'.tried = r.tried)
    (hnone' : r'.result = none) (hst : r'.stopped = r.stopped + 1)
    (hex : r'.exhausted = r.exhausted + if report = .exhausted then 1 else 0) :
    r'.settle.Inv t C ((w, report) :: arrived) := by
  have hv := h.verdict
  rw [Verdict, hnone] at hv
  obtain ⟨hlt, hstopped, hexhausted, hall⟩ := hv
  refine h.report hw ((workers_settle r').trans hws) ((tried_settle r').trans htried) ?_
  apply verdict_settle hnone'
  · rw [hws, List.length_set, h.length]
  · exact hlt
  · rw [hst, hstopped, List.length_cons]
  · rw [hex, hexhausted, List.countP_cons]
    simp only [decide_eq_true_eq]
  · exact List.forall_mem_cons.mpr ⟨hreport, hall⟩

theorem Inv.arrive (h : r.Inv t C arrived) (w : Nat) :
    ∃ arrived', (r.arrive w).Inv t C arrived' := by
  unfold Race.arrive
  split
  · rename_i n d hnone hw
    exact ⟨_, h.report hw rfl rfl List.mem_cons_self⟩
  · rename_i hnone hw
    exact ⟨_, h.settle hw hnone (.inl rfl) rfl rfl hnone rfl rfl⟩
  · rename_i hnone hw
    exact ⟨_, h.settle hw hnone (.inr rfl) rfl rfl hnone rfl rfl⟩
  · exact ⟨arrived, h⟩

/-! ## events -/

/-- a worker sees its token cancelled only if `C`, now and after the events -/
def Heard (C : Prop) (token : Token) (events : List Event) (ts : Tokens) : Prop :=
  (∀ w, ts.isCancelled (w :: token) = true → C) ∧
    ∀ c, Event.cancel c ∈ events → ∀ w, c <:+ w :: token → C

theorem Inv.step (h : r.Inv t C arrived) {token : Token} {ts : Tokens} (e : Event)
    (hc : ∀ w, ts.isCancelled (w :: token) = true → C) :
    ∃ arrived', (step t token (r, ts) e).1.Inv t C arrived' := by
  cases e with
  | work w => exact ⟨arrived, h.work (hc w)⟩
  | arrive w => exact h.arrive w
  | cancel c => exact ⟨arrived, h⟩

theorem Heard.step {token : Token} {e : Event} {events : List Event} {ts : Tokens}
    (h : Heard C token (e :: events) ts) : Heard C token events (step t token (r, ts) e).2 := by
  obtain ⟨hts, hev⟩ := h
  refine ⟨?_, fun c hc => hev c (List.mem_cons_of_mem _ hc)⟩
  cases e with
  | work w => exact hts
  | arrive w => exact hts
  | cancel c =>
    intro w hw
    have hw' : (ts.cancel c).isCancelled (w :: token) = true := hw
    rw [Tokens.isCancelled_cancel, Bool.or_eq_true, List.isSuffixOf_iff_suffix] at hw'
    rcases hw' with hw' | hw'
    · exact hev c List.mem_cons_self w hw'
    · exact hts w hw'

/-- **What holds of a race holds after any events in any order.** -/
theorem Inv.foldl (h : r.Inv t C arrived) {token : Token} {events : List Event} {ts : Tokens}
    (hc : Heard C token events ts) :
    ∃ arrived', (events.foldl (Race.step t token) (r, ts)).1.Inv t C arrived' ∧
      Heard C token [] (events.foldl (Race.step t token) (r, ts)).2 := by
  induction events generalizing r arrived ts with
  | nil => exact ⟨arrived, h, hc⟩
  | cons e events ih =>
    obtain ⟨arrived', h'⟩ := h.step e hc.1
    exact ih h' (hc.step (r := r) (t := t))

/-! ## the end of a race -/

/-- the search of a worker is a number of its steps -/
theorem foldl_work_eq_search {token : Token} {ts : Tokens} {w : Nat} {answers : Nat → Bool}
    (ha : ∀ i, answers i = ts.isCancelled (w :: token)) (i : Nat) (tried : List UInt64)
    (n : UInt64) (r : Race) (ht : r.tried = tried) (hw : r.workers[w]? = some (.running n)) :
    ∃ k, (List.replicate k (Event.work w)).foldl (step t token) (r, ts)
      = ({ r with
          workers := r.workers.set w (.reporting (t.search answers i tried n).2)
          tried := (t.search answers i tried n).1 }, ts) := by
  have hlt := (List.getElem?_eq_some_iff.mp hw).1
  fun_induction Task.search t answers i tried n generalizing r with
  | case1 i tried n hi =>
    refine ⟨1, ?_⟩
    rw [ha] at hi
    subst ht
    simp [step, work, hw, hi]
  | case2 i tried n hi report hp =>
    refine ⟨1, ?_⟩
    rw [ha] at hi
    subst ht
    simp [step, work, hw, hi, hp, Worker.ofProgress]
  | case3 i tried n hi m hp ih =>
    rw [ha] at hi
    subst ht
    have hstep : step t token (r, ts) (.work w)
        = ({ r with workers := r.workers.set w (.running m), tried := n :: r.tried }, ts) := by
      simp [step, work, hw, hi, hp, Worker.ofProgress]
    obtain ⟨k, hk⟩ := ih { r with workers := r.workers.set w (.running m), tried := n :: r.tried }
      rfl (List.getElem?_set_self hlt) (by simpa using hlt)
    refine ⟨k + 1, ?_⟩
    rw [List.replicate_succ, List.foldl_cons, hstep, hk]
    simp only [List.set_set]

theorem workOut_eq_foldl (t : Task) (token : Token) (ts : Tokens) (w : Nat) (r : Race) :
    ∃ k, (List.replicate k (Event.work w)).foldl (step t token) (r, ts)
      = (r.workOut t token ts w, ts) := by
  unfold workOut
  split
  · rename_i n hw
    exact foldl_work_eq_search (fun _ => rfl) 0 r.tried n r rfl hw
  · exact ⟨0, rfl⟩

/-- bringing a race to its end is nothing but more steps -/
theorem finish_eq_foldl (t : Task) (token : Token) (ts : Tokens) (ws : List Nat) (r : Race) :
    ∃ more : List Event, (∀ c, Event.cancel c ∉ more) ∧
      more.foldl (step t token) (r, ts) = (r.finish t token ts ws, ts) := by
  induction ws generalizing r with
  | nil => exact ⟨[], by simp, rfl⟩
  | cons w ws ih =>
    unfold finish
    split
    · exact ⟨[], by simp, rfl⟩
    · obtain ⟨k, hk⟩ := workOut_eq_foldl t token ts w r
      obtain ⟨more, hno, hmore⟩ := ih ((r.workOut t token ts w).arrive w)
      refine ⟨List.replicate k (.work w) ++ .arrive w :: more, ?_, ?_⟩
      · intro c hc
        rcases List.mem_append.mp hc with hc | hc
        · cases List.eq_of_mem_replicate hc
        · rcases List.mem_cons.mp hc with hc | hc
          · cases hc
          · exact hno c hc
      · rw [List.foldl_append, hk]
        exact hmore

theorem workers_arrive_workOut (t : Task) (token : Token) (ts : Tokens) (w : Nat) (r : Race)
    (h : r.result = none) :
    ((r.workOut t token ts w).arrive w).workers = r.workers.set w .done := by
  cases hw : r.workers[w]? with
  | none =>
    have hle := List.getElem?_eq_none_iff.mp hw
    simp [workOut, arrive, hw, h, List.set_eq_of_length_le hle]
  | some v =>
    obtain ⟨hlt, hv⟩ := List.getElem?_eq_some_iff.mp hw
    have harr (s : Race) (report : Report) (hs : s.result = none)
        (hws : s.workers[w]? = some (.reporting report)) :
        (s.arrive w).workers = s.workers.set w .done := by
      unfold arrive
      rw [hs, hws]
      cases report <;> simp
    cases v with
    | running n =>
      simp only [workOut, hw]
      generalize t.search _ 0 r.tried n = s
      have hs := harr { r with workers := r.workers.set w (.reporting s.2), tried := s.1 } s.2 h
        (List.getElem?_set_self hlt)
      rw [hs, List.set_set]
    | reporting report =>
      simp only [workOut, hw]
      exact harr r report h hw
    | done =>
      simp only [workOut, arrive, hw, h]
      rw [← hv, List.set_getElem_self]

/-- reports of all workers settle a race -/
theorem Inv.exists_not_done (h : r.Inv t C arrived) (hnone : r.result = none) :
    ∃ w < t.stride, r.workers[w]? ≠ some .done := by
  by_contra hall
  have hv := h.verdict
  rw [Verdict, hnone] at hv
  have hsub : List.range t.stride ⊆ arrived.map Prod.fst := by
    intro w hw
    have hd : r.workers[w]? = some .done := by
      by_contra hne
      exact hall ⟨w, List.mem_range.mp hw, hne⟩
    exact h.holds w _ hd
  have hle := (List.subperm_of_subset List.nodup_range hsub).length_le
  rw [List.length_range, List.length_map] at hle
  omega

theorem Inv.isSome_result_finish (h : r.Inv t C arrived) {token : Token} {ts : Tokens}
    (ws : List Nat) (hc : Heard C token [] ts)
    (hws : ∀ w < t.stride, w ∈ ws ∨ r.workers[w]? = some .done) :
    (r.finish t token ts ws).result.isSome := by
  induction ws generalizing r arrived with
  | nil =>
    show r.result.isSome
    by_contra hno
    obtain ⟨w, hw, hne⟩ := h.exists_not_done (by simpa using hno)
    rcases hws w hw with hmem | hd
    · cases hmem
    · exact hne hd
  | cons w ws ih =>
    unfold finish
    split
    · assumption
    · rename_i hno
      have hnone : r.result = none := by simpa using hno
      obtain ⟨k, hk⟩ := workOut_eq_foldl t token ts w r
      have hwork : Heard C token (List.replicate k (.work w)) ts :=
        ⟨hc.1, fun c hm => nomatch List.eq_of_mem_replicate hm⟩
      obtain ⟨arrived₁, h₁, -⟩ := h.foldl hwork
      rw [hk] at h₁
      obtain ⟨arrived₂, h₂⟩ := h₁.arrive w
      refine ih h₂ ?_
      intro u hu
      rw [workers_arrive_workOut t token ts w r hnone]
      by_cases e : u = w
      · subst e
        exact .inr (List.getElem?_set_self (by rw [h.length]; exact hu))
      · rw [List.getElem?_set_ne (Ne.symm e)]
        rcases hws u hu with hmem | hd
        · exact .inl ((List.mem_cons.mp hmem).resolve_left e)
        · exact .inr hd

end

end Race

end ChunkLedger.Mining
