import ChunkLedger.Proofs.Disk.Missing

/-!
# Stopping at any point

Steps that are carried out one by one can stop anywhere: before a step, within one that is broken
off or fails, or after the last (`Stopped`).  A run that fails, also one that the disk refuses to go
on with, has stopped before its end (`stopped_of_runUntil_eq_error`).

What every step does, broken off or not, is what a list of steps does wherever it stops: so steps
that only write to one file leave all the others alone (`Stopped.changesOnly`).
-/

namespace ChunkLedger.Disk

/-- the step `s`, begun at the disk `d`, may leave `d'` without having been carried out -/
inductive BrokenOff (d : Disk) : Step → Disk → Prop
  | failed {s : Step} {d' : Disk} {f : Fault} : d.step s = (d', .error f) → BrokenOff d s d'
  /-- some of the folders have been made -/
  | folders {p : Path} {l : Location} {ns : List String} : d.start p = .ok l → ns <+: p.steps →
      BrokenOff d (.makeFolders p) (d.makeFoldersFrom false l ns).1
  /-- a beginning of the piece has been written -/
  | piece {p : Path} {bs cs : Bytes} {d' : Disk} : cs <+: bs → d.append p cs = .ok d' →
      BrokenOff d (.append p bs) d'

/-- the steps `ss`, begun at the disk `d`, may leave `d'` when the first `n` of them have been
carried out and no more -/
inductive Stopped : Disk → List Step → Nat → Disk → Prop
  | now (d : Disk) (ss : List Step) : Stopped d ss 0 d
  | within {d d' : Disk} {s : Step} {ss : List Step} : d.BrokenOff s d' → Stopped d (s :: ss) 0 d'
  | after {d m d' : Disk} {s : Step} {ss : List Step} {n : Nat} : d.step s = (m, .ok ()) →
      Stopped m ss n d' → Stopped d (s :: ss) (n + 1) d'

section
variable {d d' : Disk} {ss : List Step} {n : Nat}

theorem Stopped.le_length (h : Stopped d ss n d') : n ≤ ss.length := by
  induction h with
  | now d ss => exact Nat.zero_le _
  | within _ => exact Nat.zero_le _
  | after _ _ ih => exact Nat.succ_le_succ ih

/-- what may be left by some steps may be left when others were to follow -/
theorem Stopped.append (h : Stopped d ss n d') (ts : List Step) : Stopped d (ss ++ ts) n d' := by
  induction h with
  | now d ss => exact .now _ _
  | within h => exact .within h
  | after h _ ih => exact .after h ih

/-- steps that stop do so among the first of them, or among the others when these are done -/
theorem Stopped.of_append {ts : List Step} (h : Stopped d (ss ++ ts) n d') :
    Stopped d ss n d' ∨
      ∃ m k, d.run ss = (m, .ok ()) ∧ Stopped m ts k d' ∧ n = ss.length + k := by
  induction ss generalizing d n with
  | nil => exact .inr ⟨d, n, run_nil d, h, (Nat.zero_add n).symm⟩
  | cons s ss ih =>
    rw [List.cons_append] at h
    cases h with
    | now => exact .inl (.now _ _)
    | within h => exact .inl (.within h)
    | after hs h =>
      rcases ih h with h | ⟨m, k, hm, hk, rfl⟩
      · exact .inl (.after hs h)
      · refine .inr ⟨m, k, run_cons_eq_ok.mpr ⟨_, hs, hm⟩, hk, ?_⟩
        rw [List.length_cons, Nat.add_right_comm]

/-! ## runs -/

/-- what may be left by some steps may be left when others have been carried out before -/
theorem Stopped.after_run {m : Disk} {ts : List Step} (hrun : d.run ss = (m, .ok ()))
    (h : Stopped m ts n d') : Stopped d (ss ++ ts) (ss.length + n) d' := by
  induction ss generalizing d with
  | nil =>
    cases hrun
    rwa [List.nil_append, List.length_nil, Nat.zero_add]
  | cons s ss ih =>
    obtain ⟨k, hk, hrun⟩ := run_cons_eq_ok.mp hrun
    rw [List.cons_append, List.length_cons, Nat.add_right_comm]
    exact .after hk (ih hrun)

theorem stopped_of_run_eq_ok (h : d.run ss = (d', .ok ())) : Stopped d ss ss.length d' := by
  have hstop := Stopped.after_run h (.now d' [])
  rwa [List.append_nil] at hstop

theorem stopped_of_run_eq_error {f : Fault} (h : d.run ss = (d', .error f)) :
    ∃ n < ss.length, Stopped d ss n d' := by
  induction ss generalizing d with
  | nil => cases h
  | cons s ss ih =>
    rw [run_cons] at h
    rcases hs : d.step s with ⟨m, g | _⟩
    · rw [hs] at h
      cases h
      exact ⟨0, Nat.succ_pos _, .within (.failed hs)⟩
    · rw [hs] at h
      obtain ⟨n, hn, h⟩ := ih h
      exact ⟨n + 1, Nat.succ_lt_succ hn, .after hs h⟩

/-- a step that has been begun has been broken off, if it has done anything -/
theorem stopped_begin (d : Disk) (part : Nat) (s : Step) (ss : List Step) :
    Stopped d (s :: ss) 0 (d.begin part s) := by
  cases s with
  | makeFolders p =>
    rw [begin]
    cases hl : d.start p with
    | ok l => exact .within (.folders hl (List.take_prefix part p.steps))
    | error f => exact .now _ _
  | append p bs =>
    rw [begin]
    cases happend : d.append p (bs.take part) with
    | ok d' => exact .within (.piece (List.take_prefix part bs) happend)
    | error f => exact .now _ _
  | create p => exact .now _ _
  | sync p => exact .now _ _
  | rename source target => exact .now _ _

/-- what comes of a refusal: the run has failed before, or it has ended before, or it has stopped
within the next step -/
theorem runUntil_some (d : Disk) (r : Refusal) (ss : List Step) :
    (∃ f d', d.run (ss.take r.steps) = (d', .error f) ∧
      d.runUntil (some r) ss = (d', .error f)) ∨
    (∃ d', d.run ss = (d', .ok ()) ∧ d.runUntil (some r) ss = (d', .ok ())) ∨
    ∃ m s ts, ss = ss.take r.steps ++ s :: ts ∧ d.run (ss.take r.steps) = (m, .ok ()) ∧
      d.runUntil (some r) ss = (m.begin r.part s, .error r.fault) := by
  rw [runUntil]
  rcases hrun : d.run (ss.take r.steps) with ⟨m, f | _⟩
  · exact .inl ⟨f, m, rfl, rfl⟩
  · cases hdrop : ss.drop r.steps with
    | nil =>
      rw [List.take_of_length_le (List.drop_eq_nil_iff.mp hdrop)] at hrun
      exact .inr (.inl ⟨m, hrun, rfl⟩)
    | cons s ts =>
      refine .inr (.inr ⟨m, s, ts, ?_, rfl, rfl⟩)
      rw [← hdrop, List.take_append_drop]

/-- a run that fails, for whatever reason, has stopped before its end -/
theorem stopped_of_runUntil_eq_error {refusal : Option Refusal} {f : Fault}
    (h : d.runUntil refusal ss = (d', .error f)) : ∃ n < ss.length, Stopped d ss n d' := by
  cases refusal with
  | none => exact stopped_of_run_eq_error h
  | some r =>
    rcases runUntil_some d r ss with ⟨g, k, hrun, heq⟩ | ⟨k, -, heq⟩ | ⟨m, s, ts, hss, hrun, heq⟩
    · rw [heq] at h
      cases h
      obtain ⟨n, hn, hstop⟩ := stopped_of_run_eq_error hrun
      refine ⟨n, Nat.lt_of_lt_of_le hn (List.length_take_le' r.steps ss), ?_⟩
      rw [← List.take_append_drop r.steps ss]
      exact hstop.append _
    · rw [heq] at h
      cases h
    · rw [heq] at h
      cases h
      have hstop := Stopped.after_run hrun (stopped_begin m r.part s ts)
      rw [← hss] at hstop
      refine ⟨_, ?_, hstop⟩
      rw [hss, List.length_append, List.length_cons, ← hss]
      omega

theorem run_of_runUntil_eq_ok {refusal : Option Refusal}
    (h : d.runUntil refusal ss = (d', .ok ())) : d.run ss = (d', .ok ()) := by
  cases refusal with
  | none => exact h
  | some r =>
    rcases runUntil_some d r ss with ⟨g, k, -, heq⟩ | ⟨k, hrun, heq⟩ | ⟨m, s, ts, -, -, heq⟩
    · rw [heq] at h
      cases h
    · rw [heq] at h
      cases h
      exact hrun
    · rw [heq] at h
      cases h

end

/-! ## what steps leave alone -/

/-- the step makes a file at the path, writes to it or makes sure of it -/
def Step.Writes (p : Path) : Step → Prop
  | .create q => q = p
  | .append q _ => q = p
  | .sync q => q = p
  | .makeFolders _ => False
  | .rename _ _ => False

section
variable {d d' : Disk} {p : Path}

/-- a change that fails is none -/
theorem orUnchanged_eq_error {x : Except Fault Disk} {f : Fault}
    (h : d.orUnchanged x = (d', .error f)) : d' = d := by
  cases x with
  | error g =>
    cases h
    rfl
  | ok m => cases h

theorem Step.Writes.changesOnly {s : Step} (hs : s.Writes p) (h : d.step s = (d', .ok ())) :
    ChangesOnly (p.location d.current) d d' := by
  cases s with
  | create q =>
    obtain rfl : q = p := hs
    exact changesOnly_create (orUnchanged_eq_ok h)
  | append q bs =>
    obtain rfl : q = p := hs
    exact changesOnly_append (orUnchanged_eq_ok h)
  | sync q =>
    cases h
    exact ChangesOnly.refl _ d
  | makeFolders q => exact hs.elim
  | rename source target => exact hs.elim

theorem Step.Writes.changesOnly_of_brokenOff {s : Step} (hs : s.Writes p) (h : d.BrokenOff s d') :
    ChangesOnly (p.location d.current) d d' := by
  cases h with
  | failed h =>
    have hd : d' = d := by
      cases s with
      | create q => exact orUnchanged_eq_error h
      | append q bs => exact orUnchanged_eq_error h
      | sync q => cases h
      | makeFolders q => exact hs.elim
      | rename source target => exact hs.elim
    rw [hd]
    exact ChangesOnly.refl _ d
  | folders => exact hs.elim
  | piece _ h =>
    obtain rfl : _ = p := hs
    exact changesOnly_append h

/-- steps that write to one file leave everything else alone, wherever they stop -/
theorem Stopped.changesOnly {ss : List Step} {n : Nat} (h : Stopped d ss n d')
    (hs : ∀ s ∈ ss, s.Writes p) : ChangesOnly (p.location d.current) d d' := by
  induction h with
  | now d ss => exact ChangesOnly.refl _ d
  | within h => exact (hs _ List.mem_cons_self).changesOnly_of_brokenOff h
  | after h _ ih =>
    have hfirst := (hs _ List.mem_cons_self).changesOnly h
    have hrest := ih fun s hmem => hs s (List.mem_cons_of_mem _ hmem)
    rw [hfirst.current] at hrest
    exact hfirst.trans hrest

/-- a replacement that is broken off has not begun -/
theorem eq_of_brokenOff_rename {source target : Path} (h : d.BrokenOff (.rename source target) d') :
    d' = d := by
  cases h with
  | failed h => exact orUnchanged_eq_error h

/-- the making of folders may leave those along a beginning of the path -/
theorem Stopped.of_makeFolders {n : Nat} (h : Stopped d [.makeFolders p] n d') :
    d' = d ∨ ∃ l ns, d.start p = .ok l ∧ ns <+: p.steps ∧
      d' = (d.makeFoldersFrom false l ns).1 := by
  have hstep {m : Disk} {r : Except Fault Unit} (hm : d.step (.makeFolders p) = (m, r)) :
      m = d ∨ ∃ l ns, d.start p = .ok l ∧ ns <+: p.steps ∧
        m = (d.makeFoldersFrom false l ns).1 := by
    have hm : m = (d.makeFolders p).1 := (congrArg Prod.fst hm).symm
    rw [hm, makeFolders]
    split
    · rename_i l hl
      exact .inr ⟨l, p.steps, hl, List.prefix_refl _, rfl⟩
    · exact .inl rfl
  cases h with
  | now => exact .inl rfl
  | within h =>
    cases h with
    | failed hm => exact hstep hm
    | folders hl hns => exact .inr ⟨_, _, hl, hns, rfl⟩
  | after hm hrest =>
    cases hrest
    exact hstep hm

/-- making folders makes folders and nothing else, wherever it stops -/
theorem Stopped.makesFolders {n : Nat} (h : Stopped d [.makeFolders p] n d') :
    MakesFolders d d' := by
  rcases h.of_makeFolders with rfl | ⟨l, ns, -, -, rfl⟩
  · exact MakesFolders.refl d'
  · exact makesFolders_makeFoldersFrom d false l ns

/-- on the way to where a path leads no folder is made -/
theorem Stopped.eq_of_place {q : Path} {spot : Place} {n : Nat} (h : Stopped d [.makeFolders q] n d')
    (hp : d.place p = .ok spot) (hq : p.parent? = some q) : d' = d := by
  rcases h.of_makeFolders with rfl | ⟨l, ns, hl, hns, rfl⟩
  · rfl
  · rw [makeFoldersFrom_of_place hp hq hl hns]

/-- and none is made at the end of a path that only goes down -/
theorem Stopped.not_new {q : Path} {n : Nat} (h : Stopped d [.makeFolders q] n d')
    (hq : p.parent? = some q) (hdown : ".." ∉ p.steps) : ¬New d d' (p.location d.current) := by
  rcases h.of_makeFolders with rfl | ⟨l, ns, hl, hns, rfl⟩
  · exact fun hnew => hnew.1 hnew.2
  obtain ⟨m, hnames, hloc⟩ := Path.location_of_parent? hq d.current
  obtain ⟨_, _, _, hsteps, -, -⟩ := Path.steps_of_parent? hq
  have hm : m ∈ p.steps.filter (· ≠ ".") := by
    rw [← Path.names, hnames]
    exact List.mem_append_right q.names (List.mem_singleton_self m)
  obtain ⟨hmem, hdot⟩ := List.mem_filter.mp hm
  have hup : m ≠ ".." := fun hm => hdown (hm ▸ hmem)
  have hdown' : ".." ∉ q.steps := fun hq => hdown (hsteps ▸ List.mem_append_left _ hq)
  have hfolder : ns.foldl Location.move l <+: q.location d.current := by
    rw [Path.location, ← start_eq_ok hl]
    exact foldl_move_mono hns hdown' l
  rw [hloc, Path.move_name (by simpa using hdot) hup]
  intro hnew
  refine hnew.1 ((get?_makeFoldersFrom (fun hup => hdown' (hns.subset hup)) ?_ false).symm.trans
    hnew.2)
  -- the end of the path is further down than its folder
  intro hle
  have hlength := (hle.trans hfolder).length_le
  rw [List.length_append, List.length_singleton] at hlength
  omega

end

end ChunkLedger.Disk
