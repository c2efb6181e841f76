import ChunkLedger.Proofs.Chain.File
import ChunkLedger.Proofs.Disk.Stopping

/-!
# A chain file is the old one or the new one

Everything that saving does before its last step is done to folders and to the draft
(`saveSteps_eq_ok`), so wherever it stops the file at the path is what it was (`FileKept`).  The
last step puts the draft, by then complete, in the place of the file.  There is nothing between the
two (`kept_or_saved`).
-/

namespace ChunkLedger.Chain

/-- what is loaded has been made from the content at the path -/
theorem load_cases (path : Path) (d : Disk) :
    (∃ f, load path d = .error (.disk f)) ∨
      ∃ bs, d.content (path.location d.current) = some bs ∧ load path d = ofContent path bs := by
  unfold load ofFile
  cases hr : d.read path with
  | error f => exact .inl ⟨f, rfl⟩
  | ok bs => exact .inr ⟨bs, Disk.content_of_read hr, rfl⟩

/-- The disk `d'` has at `path` the file that `d` has there, and loads from it what `d` loads. -/
structure FileKept (path : Path) (d d' : Disk) : Prop where
  current : d'.current = d.current
  content : d'.content (path.location d.current) = d.content (path.location d.current)
  /-- no other file has changed either, except for the draft -/
  others : ∀ l, (∀ draft, path.draft? = some draft → l ≠ draft.location d.current) →
    d'.content l = d.content l
  load : ∀ spot, d.place path = .ok spot → Chain.load path d' = Chain.load path d
  /-- Through folders that are missing a path that only goes down leads to nothing, also when they
  have been made; but only then is it noticed that a name is too long. -/
  load_down : ".." ∉ path.steps → Chain.load path d' = Chain.load path d ∨
    (∃ n ∈ path.steps, Disk.maxNameLength < n.utf8ByteSize) ∧
      Chain.load path d = .error (.disk .notFound) ∧ Chain.load path d' = .error (.disk .tooLong)
  /-- Through folders that have been made, and up again, a path may lead to what has been at its
  location all the time: no other chain is ever loaded. -/
  load_any : (∃ f, Chain.load path d' = .error (.disk f)) ∨
    ∃ bs, d.content (path.location d.current) = some bs ∧ Chain.load path d' = ofContent path bs

theorem FileKept.refl (path : Path) (d : Disk) : FileKept path d d :=
  ⟨rfl, rfl, fun _ _ => rfl, fun _ _ => rfl, fun _ => .inl rfl, load_cases path d⟩

/-- what is done to the draft before it takes the place of the file -/
def writing (draft : Path) (pieces : List Bytes) : List Disk.Step :=
  .create draft :: pieces.map (.append draft) ++ [.sync draft]

theorem writes_of_mem_writing {draft : Path} {pieces : List Bytes} {s : Disk.Step}
    (h : s ∈ writing draft pieces) : s.Writes draft := by
  rw [writing, List.cons_append, List.mem_cons, List.mem_append, List.mem_map,
    List.mem_singleton] at h
  rcases h with rfl | ⟨bs, -, rfl⟩ | rfl <;> rfl

section
variable {path : Path} {pieces : List Bytes} {steps : List Disk.Step}

/-- the steps of saving: folders, the draft, and last its taking the place of the file -/
theorem saveSteps_eq_ok (h : saveSteps path pieces = .ok steps) :
    ∃ draft, path.draft? = some draft ∧
      steps = ((path.parent?.map Disk.Step.makeFolders).toList ++ writing draft pieces) ++
        [.rename draft path] := by
  unfold saveSteps at h
  cases hdraft : path.draft? with
  | none => rw [hdraft] at h; cases h
  | some draft =>
    rw [hdraft] at h
    refine ⟨draft, rfl, ?_⟩
    rw [← Except.ok.inj h, writing, List.append_assoc, List.append_assoc, List.append_assoc,
      List.cons_append]
    rfl

/-- what saving begins with, if there is a folder to be made -/
theorem exists_saveSteps {draft q : Path} (hdraft : path.draft? = some draft)
    (hq : path.parent? = some q) (pieces : List Bytes) :
    ∃ rest, saveSteps path pieces = .ok (.makeFolders q :: .create draft :: rest) := by
  rw [saveSteps, hdraft, hq]
  exact ⟨_, rfl⟩

variable {draft : Path} {d d' : Disk} {n : Nat}

/-- before the replacement, only folders have been made and the draft has been written -/
theorem changes_of_stopped
    (h : d.Stopped ((path.parent?.map Disk.Step.makeFolders).toList ++ writing draft pieces) n d') :
    ∃ m, d.MakesFolders m ∧ (∀ spot, d.place path = .ok spot → m = d) ∧
      (".." ∉ path.steps → ¬Disk.New d m (path.location d.current)) ∧
        m.ChangesOnly (draft.location d.current) d' := by
  have hfolders {m : Disk} {k : Nat}
      (h : d.Stopped (path.parent?.map Disk.Step.makeFolders).toList k m) :
      d.MakesFolders m ∧ (∀ spot, d.place path = .ok spot → m = d) ∧
        (".." ∉ path.steps → ¬Disk.New d m (path.location d.current)) := by
    cases hq : path.parent? with
    | none =>
      rw [hq] at h
      cases h
      exact ⟨Disk.MakesFolders.refl d, fun _ _ => rfl, fun _ hnew => hnew.1 hnew.2⟩
    | some q =>
      rw [hq] at h
      exact ⟨Disk.Stopped.makesFolders h, fun _ hp => Disk.Stopped.eq_of_place h hp hq,
        Disk.Stopped.not_new h hq⟩
  rcases h.of_append with h | ⟨m, k, hm, h, -⟩
  · obtain ⟨hmakes, hsame, hnew⟩ := hfolders h
    exact ⟨d', hmakes, hsame, hnew, Disk.ChangesOnly.refl _ d'⟩
  · obtain ⟨hmakes, hsame, hnew⟩ := hfolders (Disk.stopped_of_run_eq_ok hm)
    have hchanges := h.changesOnly fun s hs => writes_of_mem_writing hs
    rw [hmakes.current] at hchanges
    exact ⟨m, hmakes, hsame, hnew, hchanges⟩

section
variable (hdraft : path.draft? = some draft)
  (h : d.Stopped ((path.parent?.map Disk.Step.makeFolders).toList ++ writing draft pieces) n d')
include hdraft h

/-- a path that only goes down is read before the replacement as it was at the beginning -/
theorem read_of_stopped (hdown : ".." ∉ path.steps) :
    d'.read path = d.read path ∨
      d.read path = .error .notFound ∧
        ∃ f, Disk.Missed path.steps f ∧ d'.read path = .error f := by
  obtain ⟨m, hmakes, -, hnew, hchanges⟩ := changes_of_stopped h
  have hbeside : ¬draft.location d.current <+: path.location m.current := by
    obtain ⟨l, n, hpath, hbeside⟩ := Path.location_draft hdraft d.current
    intro hle
    rw [hmakes.current] at hle
    refine Path.location_draft_ne hdraft d.current (hle.eq_of_length ?_)
    rw [hpath, hbeside, List.length_append, List.length_append]
    rfl
  rw [hchanges.read_down hdown hbeside]
  exact hmakes.read hdown (hnew hdown)

theorem fileKept_of_stopped : FileKept path d d' := by
  obtain ⟨m, hmakes, hsame, -, hchanges⟩ := changes_of_stopped h
  have hcurrent : d'.current = d.current := hchanges.current.trans hmakes.current
  have hothers (l : Location) (hl : l ≠ draft.location d.current) :
      d'.content l = d.content l := (hchanges.content hl).trans (hmakes.content l)
  have hhere := hothers _ (Path.location_draft_ne hdraft d.current).symm
  refine ⟨hcurrent, hhere, fun l hl => hothers l (hl draft hdraft), ?_, ?_, ?_⟩
  · intro spot hp
    rw [hsame spot hp] at hchanges
    rw [load, load, hchanges.read hp (Path.location_draft_ne hdraft d.current).symm]
  · intro hdown
    rw [load, load]
    rcases read_of_stopped hdraft h hdown with heq | ⟨hbefore, f, rfl | ⟨rfl, hlong⟩, hafter⟩
    · exact .inl (by rw [heq])
    · exact .inl (by rw [hbefore, hafter])
    · exact .inr ⟨hlong, by rw [hbefore]; rfl, by rw [hafter]; rfl⟩
  · have hload := load_cases path d'
    rwa [hcurrent, hhere] at hload

end

/-- what the disk has at the path when saving has come to its end -/
theorem content_of_run (hsteps : saveSteps path pieces = .ok steps)
    (h : d.run steps = (d', .ok ())) :
    d'.content (path.location d.current) = some pieces.flatten := by
  have hread := read_of_saveSteps hsteps h
  obtain ⟨draft, -, rfl⟩ := saveSteps_eq_ok hsteps
  obtain ⟨m, hm, hlast⟩ := Disk.run_append_eq_ok.mp h
  obtain ⟨k, hmakes, -, -, hchanges⟩ := changes_of_stopped (Disk.stopped_of_run_eq_ok hm)
  obtain ⟨m', hrename, hend⟩ := Disk.run_cons_eq_ok.mp hlast
  cases hend
  obtain ⟨_, _, _, _, _, -, -, -, -, -, -, hd⟩ := Disk.rename_eq_ok (Disk.orUnchanged_eq_ok hrename)
  have hcurrent : d'.current = d.current := by
    rw [hd, Disk.current_put, Disk.current_erase]
    exact hchanges.current.trans hmakes.current
  rw [← hcurrent]
  exact Disk.content_of_read hread

/-- what takes the place of a file at the end of a path that only goes down could be read there -/
theorem read_of_replaced (hsteps : saveSteps path pieces = .ok steps)
    (h : d.run steps = (d', .ok ())) (hdown : ".." ∉ path.steps) {bs : Bytes}
    (hbs : d.content (path.location d.current) = some bs) : d.read path = .ok bs := by
  obtain ⟨draft, hdraft, rfl⟩ := saveSteps_eq_ok hsteps
  obtain ⟨m, hm, hlast⟩ := Disk.run_append_eq_ok.mp h
  obtain ⟨m', hrename, -⟩ := Disk.run_cons_eq_ok.mp hlast
  obtain ⟨_, _, l, n, _, -, hplace, -, hslash, hshort, -, -⟩ :=
    Disk.rename_eq_ok (Disk.orUnchanged_eq_ok hrename)
  have hstop := Disk.stopped_of_run_eq_ok hm
  have hkept := fileKept_of_stopped hdraft hstop
  have hfile : m.content (l ++ [n]) = some bs := by
    rw [← Disk.location_of_place hplace, hkept.current, hkept.content, hbs]
  have hread : m.read path = .ok bs := Disk.read_of_look
    (Disk.look_of_get? hplace hslash hshort (Disk.content_eq_some_iff.mp hfile))
  rcases read_of_stopped hdraft hstop hdown with heq | ⟨-, f, -, hfault⟩
  · rw [← heq, hread]
  · rw [hread] at hfault
    cases hfault

/-- where a chain file is, another can be saved in its place, if the draft can be created -/
theorem exists_run_saveSteps (hsteps : saveSteps path pieces = .ok steps)
    (hdraft : path.draft? = some draft) {m : Disk} (hm : d.create draft = .ok m) {old : Bytes}
    (hold : d.read path = .ok old) (hstart : ∀ q, path.parent? = some q → ∃ l, d.start q = .ok l) :
    ∃ d', d.run steps = (d', .ok ()) := by
  obtain ⟨k, hk⟩ := Disk.look_of_read hold
  obtain ⟨l, n, hplace, -⟩ := Disk.look_eq_file_iff.mp hk
  have hfolders : d.run (path.parent?.map Disk.Step.makeFolders).toList = (d, .ok ()) := by
    cases hq : path.parent? with
    | none => rfl
    | some q =>
      obtain ⟨r, hr⟩ := hstart q hq
      refine Disk.run_cons_eq_ok.mpr ⟨d, ?_, rfl⟩
      rw [Disk.step, Disk.makeFolders, hr]
      exact Disk.makeFoldersFrom_of_place hplace hq hr (List.prefix_refl _)
  obtain ⟨m', hpieces, hread⟩ := Disk.exists_run_appends (Disk.read_create hm) pieces
  have hwriting : d.run (writing draft pieces) = (m', .ok ()) := by
    rw [writing, List.cons_append]
    refine Disk.run_cons_eq_ok.mpr ⟨m, by rw [Disk.step, hm]; rfl, ?_⟩
    exact Disk.run_append_eq_ok.mpr ⟨m', hpieces, Disk.run_cons_eq_ok.mpr ⟨m', rfl, rfl⟩⟩
  obtain ⟨_, hdraft', rfl⟩ := saveSteps_eq_ok hsteps
  rw [hdraft] at hdraft'
  cases hdraft'
  have hbefore := Disk.run_append_eq_ok.mpr ⟨d, hfolders, hwriting⟩
  have hkept : m'.read path = .ok old := by
    have hchanges := (Disk.stopped_of_run_eq_ok hwriting).changesOnly
      fun s hs => writes_of_mem_writing hs
    rw [hchanges.read hplace (Path.location_draft_ne hdraft d.current).symm, hold]
  obtain ⟨d', hrename⟩ := Disk.exists_rename hread hkept
  refine ⟨d', Disk.run_append_eq_ok.mpr ⟨m', hbefore, Disk.run_cons_eq_ok.mpr ⟨d', ?_, rfl⟩⟩⟩
  rw [Disk.step, hrename]
  rfl

/-- a chain that has been saved is loaded -/
theorem load_of_run {c : Chain} (hc : Built c) (hpieces : pieces.flatten = utf8 c.toText)
    (hsteps : saveSteps path pieces = .ok steps) (h : d.run steps = (d', .ok ())) :
    load path d' = .ok c := by
  rw [load, read_of_saveSteps hsteps h, hpieces]
  exact ofContent_toText hc path

/-- wherever saving stops, the file is the old one, and the draft has not yet taken its place, or
the new one, and it has -/
theorem kept_or_saved (hsteps : saveSteps path pieces = .ok steps) (h : d.Stopped steps n d') :
    (n < steps.length ∧ FileKept path d d') ∨
      (n = steps.length ∧ d.run steps = (d', .ok ())) := by
  obtain ⟨draft, hdraft, rfl⟩ := saveSteps_eq_ok hsteps
  rw [List.length_append, List.length_singleton]
  rcases h.of_append with h | ⟨m, k, hm, hlast, rfl⟩
  · exact .inl ⟨Nat.lt_succ_of_le h.le_length, fileKept_of_stopped hdraft h⟩
  · have hkept : FileKept path d m := fileKept_of_stopped hdraft (Disk.stopped_of_run_eq_ok hm)
    cases hlast with
    | now => exact .inl ⟨Nat.lt_succ_self _, hkept⟩
    | within hb =>
      rw [Disk.eq_of_brokenOff_rename hb]
      exact .inl ⟨Nat.lt_succ_self _, hkept⟩
    | after hs hend =>
      cases hend
      exact .inr ⟨rfl, Disk.run_append_eq_ok.mpr ⟨m, hm, Disk.run_cons_eq_ok.mpr ⟨_, hs, rfl⟩⟩⟩

end

end ChunkLedger.Chain
