import ChunkLedger.Proofs.Chain.Saving
import ChunkLedger.Proofs.Command.World

/-!
# What commands do to the chain file

A command changes the disk only by saving a chain, and that is the last thing that it does.  If it
fails it has not begun to save, or saving has stopped before its end, and the chain file is what it
was (`KeepsFile`, `keepsFile_runInit`, `keepsFile_runUpload`).  Commands that save nothing leave the
disk alone (`keepsDisk_runValidate`, `keepsDisk_runTable`, `keepsDisk_runProve`).
-/

namespace ChunkLedger.Command

variable {α β : Type} {path : Path}

/-! ## commands that fail -/

/-- if the action fails, the chain file is what it was -/
def KeepsFile (path : Path) (x : Action (StateM World) α) : Prop :=
  ∀ (w w' : World) (f : Failure), w.exec x = (.error f, w') →
    Chain.FileKept path w.disk w'.disk

theorem KeepsDisk.keepsFile {x : Action (StateM World) α} (h : KeepsDisk x) (path : Path) :
    KeepsFile path x := by
  intro w w' f hx
  have hdisk : w'.disk = w.disk := by
    rw [← h w, hx]
  rw [hdisk]
  exact Chain.FileKept.refl path w.disk

/-- what comes before the disk is changed does no harm -/
theorem keepsFile_bind {x : Action (StateM World) α} {f : α → Action (StateM World) β}
    (hx : KeepsDisk x) (hf : ∀ a, KeepsFile path (f a)) : KeepsFile path (x >>= f) := by
  intro w w' e h
  rcases World.exec_bind_eq_error.mp h with h | ⟨a, m, hm, h⟩
  · exact hx.keepsFile path w w' e h
  · have hdisk : m.disk = w.disk := by
      rw [← hx w, hm]
    rw [← hdisk]
    exact hf a m w' e h

/-- nor does what cannot fail, after it -/
theorem keepsFile_bind_pure {x : Action (StateM World) α} (hx : KeepsFile path x) (g : α → β) :
    KeepsFile path (x >>= fun a => pure (g a)) := by
  intro w w' e h
  rcases World.exec_bind_eq_error.mp h with h | ⟨a, m, -, h⟩
  · exact hx w w' e h
  · rw [World.exec_pure] at h
    cases h

theorem keepsFile_saveChain (path : Path) (c : Chain) : KeepsFile path (saveChain path c) := by
  intro w w' e h
  rcases World.steps_of_saveChain_error h with hsame | ⟨steps, f, hsteps, hrun⟩
  · rw [hsame]
    exact Chain.FileKept.refl path w.disk
  · obtain ⟨n, hn, hstop⟩ := Disk.stopped_of_runUntil_eq_error hrun
    rcases Chain.kept_or_saved hsteps hstop with ⟨-, hkept⟩ | ⟨hlast, -⟩
    · exact hkept
    · exact absurd hlast (Nat.ne_of_lt hn)

theorem keepsFile_runInit (chain : Path) (force : Bool) :
    KeepsFile chain (runInit chain force) := by
  rw [runInit]
  refine keepsFile_bind (fun _ => rfl) ?_
  intro present
  by_cases hrefuse : (present && !force) = true
  · rw [if_pos hrefuse]
    exact KeepsDisk.keepsFile (fun _ => rfl) chain
  · rw [if_neg hrefuse]
    exact keepsFile_bind_pure (keepsFile_saveChain chain Chain.initial) _

theorem keepsFile_runUpload (file chain : Path) (size : UInt64)
    (workers retries difficulty : Nat) :
    KeepsFile chain (runUpload file chain size workers retries difficulty) := by
  rw [runUpload]
  refine keepsFile_bind (keepsDisk_loadOrStart chain) fun c => ?_
  refine keepsFile_bind (keepsDisk_orFail _ _) fun _ => ?_
  refine keepsFile_bind (keepsDisk_readChunks file size) fun chunks => ?_
  refine keepsFile_bind (keepsDisk_orFail _ _) fun tree => ?_
  refine keepsFile_bind keepsDisk_now fun now => ?_
  refine keepsFile_bind (keepsDisk_mine _ _) fun mined => ?_
  refine keepsFile_bind (keepsDisk_orFail _ _) fun outcome => ?_
  refine keepsFile_bind (keepsDisk_orFail _ _) fun c => ?_
  exact keepsFile_bind_pure (keepsFile_saveChain chain c) _

/-! ## commands that only read -/

theorem keepsDisk_runValidate (chain : Path) (difficulty : Nat) :
    KeepsDisk (runValidate chain difficulty) := by
  rw [runValidate]
  refine keepsDisk_bind (keepsDisk_loadChain chain) fun c => ?_
  refine keepsDisk_bind (keepsDisk_orFail _ _) fun _ => ?_
  exact keepsDisk_bind (keepsDisk_orFail _ _) fun _ => keepsDisk_pure _

theorem keepsDisk_runTable (chain : Path) : KeepsDisk (runTable chain) := by
  rw [runTable]
  exact keepsDisk_bind (keepsDisk_loadChain chain) fun c => keepsDisk_pure _

theorem keepsDisk_runProve (file : Path) (index : UInt64) (chain : Path) (size : UInt64)
    (json : Bool) : KeepsDisk (runProve file index chain size json) := by
  rw [runProve]
  refine keepsDisk_bind (keepsDisk_loadChain chain) fun c => ?_
  refine keepsDisk_bind (keepsDisk_readChunks file size) fun chunks => ?_
  refine keepsDisk_bind (keepsDisk_orFail _ _) fun tree => ?_
  refine keepsDisk_bind (keepsDisk_orFail _ _) fun found => ?_
  cases json with
  | true => exact keepsDisk_pure _
  | false => exact keepsDisk_pure _

/-! ## what is there already -/

/-- where something is, no chain is begun unless this is forced -/
theorem answer_init_of_has {w : World} {chain : Path} (h : w.disk.has chain = true) :
    w.answer (.init chain false) = (.error (.chainExists chain), w) := by
  rw [World.answer, Request.run, runInit, World.exec_bind, World.exec_has, h]
  rfl

/-- a chain is begun by saving it -/
theorem run_of_init {w w' : World} {chain : Path} {force : Bool} {out : List String}
    (h : w.answer (.init chain force) = (.ok out, w')) :
    ∃ steps, Chain.saveSteps chain [utf8 Chain.initial.toText] = .ok steps ∧
      w.disk.run steps = (w'.disk, .ok ()) := by
  rw [World.answer, Request.run, runInit] at h
  obtain ⟨present, m, hm, h⟩ := World.exec_bind_eq_ok.mp h
  rw [World.exec_has] at hm
  cases hm
  by_cases hrefuse : (w.disk.has chain && !force) = true
  · rw [if_pos hrefuse] at h
    cases h
  · rw [if_neg hrefuse] at h
    obtain ⟨⟨⟩, m, hsave, h⟩ := World.exec_bind_eq_ok.mp h
    cases h
    obtain ⟨steps, hsteps, hrun⟩ := World.steps_of_saveChain_ok hsave
    exact ⟨steps, hsteps, Disk.run_of_runUntil_eq_ok hrun⟩

/-- the file at the end of a path that only goes down is seen, or nothing is begun there -/
theorem content_of_init {w : World} {chain : Path} {bs : Bytes} (hdown : ".." ∉ chain.steps)
    (hbs : w.disk.content (chain.location w.disk.current) = some bs) :
    (w.answer (.init chain false)).2.disk.content (chain.location w.disk.current) = some bs := by
  rcases h : w.answer (.init chain false) with ⟨f | out, w'⟩
  · exact (keepsFile_runInit chain false w w' f h).content.trans hbs
  · obtain ⟨steps, hsteps, hrun⟩ := run_of_init h
    have hread := Chain.read_of_replaced hsteps hrun hdown hbs
    rw [answer_init_of_has (Disk.has_of_read hread)] at h
    cases h

/-! ## old or new -/

/-- **A chain file is never left half-written.**  Wherever saving stops, before, within or after any
of its steps, whatever the disk holds to begin with and in whatever pieces the text is written: the
file is the old one as long as the replacement, the last step, has not been carried out, and then it
has the complete new text, from which the chain is loaded.  A new or an extended chain is lost with
the command that fails, and the old file is not; where the path leads to something already no chain
is begun unless this is forced, and if the path only goes down it leads to the file at its location;
and the other commands change no file. -/
theorem chainFile_old_or_new :
    (∀ (c : Chain) (path : Path) (pieces : List Bytes) (steps : List Disk.Step),
      pieces.flatten = utf8 c.toText → Chain.saveSteps path pieces = .ok steps →
        (∃ draft before, path.draft? = some draft ∧ steps = before ++ [.rename draft path]) ∧
        ∀ (d d' : Disk) (n : Nat), d.Stopped steps n d' →
          (n < steps.length ∧ Chain.FileKept path d d') ∨
            (n = steps.length ∧ d'.content (path.location d.current) = some (utf8 c.toText) ∧
              (c.Built → Chain.load path d' = .ok c))) ∧
    (∀ (w w' : World) (chain : Path) (force : Bool) (f : Failure),
      w.answer (.init chain force) = (.error f, w') → Chain.FileKept chain w.disk w'.disk) ∧
    (∀ (w w' : World) (file chain : Path) (size : UInt64) (workers retries difficulty : Nat)
      (f : Failure), w.answer (.upload file chain size workers retries difficulty)
        = (.error f, w') → Chain.FileKept chain w.disk w'.disk) ∧
    (∀ (w : World) (chain : Path), w.disk.has chain = true →
      w.answer (.init chain false) = (.error (.chainExists chain), w)) ∧
    (∀ (w : World) (chain : Path) (bs : Bytes), ".." ∉ chain.steps →
      w.disk.content (chain.location w.disk.current) = some bs →
        (w.answer (.init chain false)).2.disk.content (chain.location w.disk.current) = some bs) ∧
    ∀ (w : World) (file chain : Path) (index size : UInt64) (difficulty : Nat) (json : Bool),
      (w.answer (.validate chain difficulty)).2.disk = w.disk ∧
        (w.answer (.table chain)).2.disk = w.disk ∧
          (w.answer (.prove file index chain size json)).2.disk = w.disk := by
  refine ⟨?_, ?_, ?_, fun w chain => answer_init_of_has, fun w chain bs => content_of_init, ?_⟩
  · intro c path pieces steps hpieces hsteps
    constructor
    · obtain ⟨draft, hdraft, heq⟩ := Chain.saveSteps_eq_ok hsteps
      exact ⟨draft, _, hdraft, heq⟩
    · intro d d' n hstop
      rcases Chain.kept_or_saved hsteps hstop with hkept | ⟨hlast, hrun⟩
      · exact .inl hkept
      · have hcontent := Chain.content_of_run hsteps hrun
        rw [hpieces] at hcontent
        exact .inr ⟨hlast, hcontent, fun hc => Chain.load_of_run hc hpieces hsteps hrun⟩
  · intro w w' chain force f h
    exact keepsFile_runInit chain force w w' f h
  · intro w w' file chain size workers retries difficulty f h
    exact keepsFile_runUpload file chain size workers retries difficulty w w' f h
  · intro w file chain index size difficulty json
    exact ⟨keepsDisk_runValidate chain difficulty w, keepsDisk_runTable chain w,
      keepsDisk_runProve file index chain size json w⟩

/-- a file that holds no chain at all, and beside it what a saving that was stopped has left -/
def leftover : Disk :=
  (((⟨[], {}⟩ : Disk).put ["ledger"] .folder).put ["ledger", "chain.json"] (.file [1, 2, 3])).put
    ["ledger", "chain.json.tmp"] (.file [9])

/-- two pieces saved there -/
def inTwo (bs cs : Bytes) : List Disk.Step :=
  [.makeFolders ⟨"ledger"⟩, .create ⟨"ledger/chain.json.tmp"⟩,
    .append ⟨"ledger/chain.json.tmp"⟩ bs, .append ⟨"ledger/chain.json.tmp"⟩ cs,
    .sync ⟨"ledger/chain.json.tmp"⟩, .rename ⟨"ledger/chain.json.tmp"⟩ ⟨"ledger/chain.json"⟩]

/-- a chain is saved there: after the first piece the file is still the old one, and at the end the
chain is loaded from it; where the folder is missing and has been made, there is still no chain -/
theorem chainFile_old_or_new_leftover :
    ∃ bs cs d' d'', bs = (utf8 Chain.oldAndNew.toText).take 9 ∧
      bs ++ cs = utf8 Chain.oldAndNew.toText ∧
      Chain.saveSteps ⟨"ledger/chain.json"⟩ [bs, cs] = .ok (inTwo bs cs) ∧
        (leftover.Stopped (inTwo bs cs) 3 d' ∧ d'.content ["ledger", "chain.json.tmp"] = some bs ∧
          d'.content ["ledger", "chain.json"] = some [1, 2, 3]) ∧
        (leftover.Stopped (inTwo bs cs) 6 d'' ∧
          Chain.load ⟨"ledger/chain.json"⟩ d'' = .ok Chain.oldAndNew) ∧
        ∃ d, (⟨[], {}⟩ : Disk).Stopped (inTwo bs cs) 1 d ∧ d.get? ["ledger"] = some .folder ∧
          Chain.load ⟨"ledger/chain.json"⟩ d = .error (.disk .notFound) := by
  have hdraft : (⟨"ledger/chain.json"⟩ : Path).draft? = some ⟨"ledger/chain.json.tmp"⟩ := by
    decide +kernel
  have hparent : (⟨"ledger/chain.json"⟩ : Path).parent? = some ⟨"ledger"⟩ := by decide +kernel
  have hlocation : (⟨"ledger/chain.json"⟩ : Path).location leftover.current
      = ["ledger", "chain.json"] := by decide +kernel
  obtain ⟨bs, cs, hbs, htext⟩ : ∃ bs cs, bs = (utf8 Chain.oldAndNew.toText).take 9 ∧
      bs ++ cs = utf8 Chain.oldAndNew.toText := ⟨_, _, rfl, List.take_append_drop 9 _⟩
  have hflat : [bs, cs].flatten = utf8 Chain.oldAndNew.toText := by
    rw [List.flatten_cons, List.flatten_singleton, htext]
  have hsteps : Chain.saveSteps ⟨"ledger/chain.json"⟩ [bs, cs] = .ok (inTwo bs cs) := by
    rw [Chain.saveSteps, hdraft, hparent]
    rfl
  have hfirst : leftover.run ((inTwo bs cs).take 3)
      = (leftover.put ["ledger", "chain.json.tmp"] (.file bs), .ok ()) := rfl
  have hall : leftover.run (inTwo bs cs) = ((leftover.run (inTwo bs cs)).1, .ok ()) := rfl
  have hmiddle : leftover.Stopped (inTwo bs cs) 3 _ := (Disk.stopped_of_run_eq_ok hfirst).append _
  have hend : leftover.Stopped (inTwo bs cs) 6 _ := Disk.stopped_of_run_eq_ok hall
  have hbegin : (⟨[], {}⟩ : Disk).Stopped (inTwo bs cs) 1 ((⟨[], {}⟩ : Disk).put ["ledger"] .folder) :=
    .after rfl (.now _ _)
  have hbuilt : Chain.oldAndNew.Built := (Chain.Built.initial.append _).append _
  have hstops := (chainFile_old_or_new.1 _ _ _ _ hflat hsteps).2
  refine ⟨bs, cs, _, _, hbs, htext, hsteps, ⟨hmiddle, ?_, ?_⟩, ⟨hend, ?_⟩, _, hbegin, rfl, ?_⟩
  · rw [Disk.content, Disk.get?_put (Disk.takes_of_file (c := [9]) rfl), if_pos rfl]
  · rcases hstops _ _ _ hmiddle with ⟨-, hkept⟩ | ⟨hlast, -⟩
    · have hcontent := hkept.content
      rw [hlocation] at hcontent
      exact hcontent
    · cases hlast
  · rcases hstops _ _ _ hend with ⟨hlast, -⟩ | ⟨-, -, hload⟩
    · exact absurd hlast (Nat.lt_irrefl 6)
    · exact hload hbuilt
  · rcases hstops _ _ _ hbegin with ⟨-, hkept⟩ | ⟨hlast, -⟩
    · rcases hkept.load_down (by decide +kernel) with hsame | ⟨⟨n, hn, hlong⟩, -⟩
      · exact hsame
      · have hshort : ∀ n ∈ (⟨"ledger/chain.json"⟩ : Path).steps,
            n.utf8ByteSize ≤ Disk.maxNameLength := by decide +kernel
        exact absurd (hshort n hn) (Nat.not_le.mpr hlong)
    · cases hlast

/-- a path through a folder and up again -/
def detour : Path := ⟨"missing/../chain.json"⟩

/-- nothing but a chain file, and nothing around it -/
def alone (c : Chain) : World where
  disk := (⟨[], {}⟩ : Disk).put ["chain.json"] (.file (utf8 c.toText))
  tokens := .none
  surroundings := ⟨fun _ => [], fun _ => [], fun _ => .epoch⟩
  time := .epoch
  refusal := none

/-- a name of 256 bytes, which no file can have, in a folder that is not there -/
def tooLong : Path := ⟨"missing/" ++ String.ofList (List.replicate 64 '🔗')⟩

/-- the folder of the long name is made first, and only then is the name found too long -/
theorem read_tooLong : tooLong.parent? = some ⟨"missing"⟩ ∧ tooLong.draft?.isSome ∧
    (alone .oldAndNew).disk.read tooLong = .error .notFound ∧
    ((alone .oldAndNew).disk.put ["missing"] .folder).read tooLong = .error .tooLong := by
  decide +kernel

/-- Where a folder is missing the path leads nowhere, so that no chain is loaded.  When the folder
has been made, which is the first step of saving, the path up from it leads to the old chain: that
is neither the old result nor the new chain.  A name that is too long is noticed then, which is
another error than the old one.  And as nothing is seen at the path before, a chain is begun there
without being forced, and the old one is lost. -/
theorem old_result_lost :
    (∃ steps d', Chain.saveSteps detour [utf8 Chain.initial.toText] = .ok steps ∧
      1 < steps.length ∧ (alone .oldAndNew).disk.Stopped steps 1 d' ∧
        Chain.load detour (alone .oldAndNew).disk = .error (.disk .notFound) ∧
          Chain.load detour d' = .ok .oldAndNew ∧ Chain.oldAndNew ≠ .initial) ∧
    (∃ steps d', Chain.saveSteps tooLong [utf8 Chain.initial.toText] = .ok steps ∧
      1 < steps.length ∧ (alone .oldAndNew).disk.Stopped steps 1 d' ∧
        Chain.load tooLong (alone .oldAndNew).disk = .error (.disk .notFound) ∧
          Chain.load tooLong d' = .error (.disk .tooLong)) ∧
    ∃ out w', (alone .oldAndNew).answer (.init detour false) = (.ok out, w') ∧
      (alone .oldAndNew).disk.content ["chain.json"] = some (utf8 Chain.oldAndNew.toText) ∧
        w'.disk.content ["chain.json"] = some (utf8 Chain.initial.toText) := by
  have hlocation : detour.location (alone .oldAndNew).disk.current = ["chain.json"] := by
    decide +kernel
  refine ⟨?_, ?_, ?_⟩
  · have hdraft : detour.draft? = some ⟨"missing/../chain.json.tmp"⟩ := by decide +kernel
    have hparent : detour.parent? = some ⟨"missing/.."⟩ := by decide +kernel
    obtain ⟨rest, hsteps⟩ := Chain.exists_saveSteps hdraft hparent [utf8 Chain.initial.toText]
    refine ⟨_, (alone .oldAndNew).disk.put ["missing"] .folder, hsteps, by simp,
      .after rfl (.now _ _), rfl, ?_, ?_⟩
    · exact Chain.ofContent_toText ((Chain.Built.initial.append _).append _) detour
    · exact fun heq => absurd (congrArg Chain.length heq) (by decide)
  · obtain ⟨hparent, hname, hbefore, hafter⟩ := read_tooLong
    obtain ⟨draft, hdraft⟩ := Option.isSome_iff_exists.mp hname
    obtain ⟨rest, hsteps⟩ := Chain.exists_saveSteps hdraft hparent [utf8 Chain.initial.toText]
    have hmade : (alone .oldAndNew).disk.step (.makeFolders ⟨"missing"⟩)
        = ((alone .oldAndNew).disk.put ["missing"] .folder, .ok ()) := rfl
    refine ⟨_, (alone .oldAndNew).disk.put ["missing"] .folder, hsteps, by simp,
      .after hmade (.now _ _), ?_, ?_⟩
    · rw [Chain.load, hbefore]
      rfl
    · rw [Chain.load, hafter]
      rfl
  · have hok : ((alone .oldAndNew).answer (.init detour false)).1.isOk = true := by decide +kernel
    rcases h : (alone .oldAndNew).answer (.init detour false) with ⟨f | out, w'⟩
    · rw [h] at hok
      cases hok
    · obtain ⟨steps, hsteps, hrun⟩ := run_of_init h
      have hcontent := Chain.content_of_run hsteps hrun
      rw [hlocation, List.flatten_singleton] at hcontent
      exact ⟨out, w', rfl, rfl, hcontent⟩

end ChunkLedger.Command
