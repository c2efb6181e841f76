import ChunkLedger.Command.Run

/-!
# Commands in a world

`w.exec x` is what comes of the action `x` in the world `w`, and the world after it.  An action is
opened one step at a time: if it succeeds so does each of its steps, in the world that the step
before has left (`exec_bind_eq_ok`).

What commands are made of has its own equations: the look at a path, loading, reading chunks and
saving.  Only saving changes the disk, and mining nothing but the tokens.  That an action leaves the
disk alone (`KeepsDisk`) is therefore seen from its steps.
-/

namespace ChunkLedger.Command

variable {α β : Type}

def World.exec (w : World) (x : Action (StateM World) α) : Except Failure α × World :=
  ExceptT.run x w

/-- what a request comes to -/
def World.answer (w : World) (r : Request) : Except Failure (List String) × World :=
  w.exec r.run

namespace World

variable {w w' : World}

@[simp] theorem exec_pure (a : α) : w.exec (pure a) = (.ok a, w) := rfl

theorem exec_bind (x : Action (StateM World) α) (f : α → Action (StateM World) β) :
    w.exec (x >>= f) =
      match w.exec x with
      | (.ok a, w') => w'.exec (f a)
      | (.error e, w') => (.error e, w') := by
  show (match w.exec x with
    | (r, w') => ExceptT.bindCont f r w') = _
  rcases w.exec x with ⟨_ | _, w'⟩ <;> rfl

/-- after a step that succeeds, the next one -/
theorem exec_bind_of_ok {x : Action (StateM World) α} {a : α}
    (h : w.exec x = (.ok a, w')) (f : α → Action (StateM World) β) :
    w.exec (x >>= f) = w'.exec (f a) := by
  rw [exec_bind, h]

/-- after a step that fails, nothing -/
theorem exec_bind_of_error {x : Action (StateM World) α} {e : Failure}
    (h : w.exec x = (.error e, w')) (f : α → Action (StateM World) β) :
    w.exec (x >>= f) = (.error e, w') := by
  rw [exec_bind, h]

/-- an action succeeds if all its steps do -/
theorem exec_bind_eq_ok {x : Action (StateM World) α} {f : α → Action (StateM World) β} {b : β} :
    w.exec (x >>= f) = (.ok b, w') ↔
      ∃ a m, w.exec x = (.ok a, m) ∧ m.exec (f a) = (.ok b, w') := by
  rw [exec_bind]
  rcases w.exec x with ⟨e | a, m⟩
  · constructor
    · intro h
      cases h
    · rintro ⟨a, m, h, -⟩
      cases h
  · constructor
    · intro h
      exact ⟨a, m, rfl, h⟩
    · rintro ⟨a', m', h, hf⟩
      cases h
      exact hf

/-- the first step that fails is the failure of an action -/
theorem exec_bind_eq_error {x : Action (StateM World) α} {f : α → Action (StateM World) β}
    {e : Failure} :
    w.exec (x >>= f) = (.error e, w') ↔
      w.exec x = (.error e, w') ∨ ∃ a m, w.exec x = (.ok a, m) ∧ m.exec (f a) = (.error e, w') := by
  rw [exec_bind]
  rcases w.exec x with ⟨e' | a, m⟩
  · constructor
    · intro h
      cases h
      exact .inl rfl
    · rintro (h | ⟨a, m, h, -⟩)
      · cases h
        rfl
      · cases h
  · constructor
    · intro h
      exact .inr ⟨a, m, rfl, h⟩
    · rintro (h | ⟨a', m', h, hf⟩)
      · cases h
      · cases h
        exact hf

@[simp] theorem exec_orFail {ε : Type} (failure : ε → Failure) (x : Except ε α) :
    w.exec (orFail failure x) = (x.mapError failure, w) := by
  cases x <;> rfl

/-- a step that changes nothing has succeeded if it had a result -/
theorem unchanged_eq_ok {ε : Type} {failure : ε → Failure} {x : Except ε α} {a : α} :
    (x.mapError failure, w) = (.ok a, w') ↔ x = .ok a ∧ w = w' := by
  cases x with
  | error e =>
    constructor
    · intro h
      cases h
    · rintro ⟨h, -⟩
      cases h
  | ok b =>
    constructor
    · intro h
      cases h
      exact ⟨rfl, rfl⟩
    · rintro ⟨h, rfl⟩
      cases h
      rfl

theorem exec_orFail_eq_ok {ε : Type} {failure : ε → Failure} {x : Except ε α} {a : α} :
    w.exec (orFail failure x) = (.ok a, w') ↔ x = .ok a ∧ w = w' := by
  rw [exec_orFail, unchanged_eq_ok]

/-! ## what commands are made of -/

@[simp] theorem exec_has (p : Path) : w.exec (has p) = (.ok (w.disk.has p), w) := rfl

@[simp] theorem exec_readFile (p : Path) : w.exec (readFile p) = (.ok (w.disk.read p), w) := rfl

@[simp] theorem exec_now : w.exec (ExceptT.lift Host.now) = (.ok w.time, w) := rfl

theorem exec_mine (config : Mining.Config) (b : Block) :
    w.exec (ExceptT.lift (Host.mine config b)) =
      let m := Mining.Miner.mineOnce config w.surroundings w.tokens b
      (.ok ⟨m.block, m.result, 0⟩, { w with tokens := m.tokens }) := rfl

@[simp] theorem exec_loadChain (path : Path) :
    w.exec (loadChain path) = ((Chain.load path w.disk).mapError (.loading path), w) := by
  rw [loadChain, exec_bind, exec_readFile]
  exact exec_orFail _ _

/-- the chain that a disk has at a path; if nothing is there, one that has only its first block -/
def chainAt (path : Path) (d : Disk) : Except Chain.FileFault Chain :=
  if d.has path then Chain.load path d else .ok Chain.initial

@[simp] theorem exec_loadOrStart (path : Path) :
    w.exec (loadOrStart path) = ((chainAt path w.disk).mapError (.loading path), w) := by
  rw [loadOrStart, exec_bind, exec_has, chainAt]
  by_cases h : w.disk.has path = true
  · simp only [h, if_true]
    exact exec_loadChain path
  · simp only [h]
    rfl

@[simp] theorem exec_readChunks (file : Path) (size : UInt64) :
    w.exec (readChunks file size)
      = ((Chunk.load (Chunk.sizeOfMb size).toNat file w.disk).mapError (.chunking file), w) := by
  rw [readChunks, exec_bind, exec_readFile]
  exact exec_orFail _ _

/-- saving carries out its steps on the disk, if there are any for the path -/
theorem exec_saveChain (path : Path) (c : Chain) :
    w.exec (saveChain path c) =
      match Chain.saveSteps path [utf8 c.toText] with
      | .error f => (.error (.saving path f), w)
      | .ok steps =>
        (((w.disk.runUntil w.refusal steps).2).mapError (.saving path ∘ .disk),
          { w with disk := (w.disk.runUntil w.refusal steps).1 }) := by
  rw [saveChain, exec_bind, exec_orFail]
  cases Chain.saveSteps path [utf8 c.toText] with
  | error f => rfl
  | ok steps =>
    show (w.exec (ExceptT.lift (Host.perform steps) >>= _)) = _
    rw [exec_bind]
    exact exec_orFail _ _

theorem exec_saveChain_of_run {path : Path} {c : Chain} {steps : List Disk.Step} {d : Disk}
    (hsteps : Chain.saveSteps path [utf8 c.toText] = .ok steps)
    (hrun : w.disk.runUntil w.refusal steps = (d, .ok ())) :
    w.exec (saveChain path c) = (.ok (), { w with disk := d }) := by
  rw [exec_saveChain, hsteps]
  simp only [hrun]
  rfl

/-- saving that succeeds has carried out all its steps -/
theorem steps_of_saveChain_ok {path : Path} {c : Chain}
    (h : w.exec (saveChain path c) = (.ok (), w')) :
    ∃ steps, Chain.saveSteps path [utf8 c.toText] = .ok steps ∧
      w.disk.runUntil w.refusal steps = (w'.disk, .ok ()) := by
  rw [exec_saveChain] at h
  cases hsteps : Chain.saveSteps path [utf8 c.toText] with
  | error f =>
    simp only [hsteps] at h
    cases h
  | ok steps =>
    simp only [hsteps] at h
    rcases hrun : w.disk.runUntil w.refusal steps with ⟨d, f | _⟩
    · rw [hrun] at h
      cases h
    · rw [hrun] at h
      cases h
      exact ⟨steps, rfl, hrun⟩

/-- saving that fails has no steps to carry out, or they have failed -/
theorem steps_of_saveChain_error {path : Path} {c : Chain} {e : Failure}
    (h : w.exec (saveChain path c) = (.error e, w')) :
    w'.disk = w.disk ∨ ∃ steps f, Chain.saveSteps path [utf8 c.toText] = .ok steps ∧
      w.disk.runUntil w.refusal steps = (w'.disk, .error f) := by
  rw [exec_saveChain] at h
  cases hsteps : Chain.saveSteps path [utf8 c.toText] with
  | error f =>
    simp only [hsteps] at h
    cases h
    exact .inl rfl
  | ok steps =>
    simp only [hsteps] at h
    rcases hrun : w.disk.runUntil w.refusal steps with ⟨d, f | _⟩
    · rw [hrun] at h
      cases h
      exact .inr ⟨steps, f, rfl, hrun⟩
    · rw [hrun] at h
      cases h

end World

/-! ## the disk is left alone -/

/-- the disk after the action is the one before it -/
def KeepsDisk (x : Action (StateM World) α) : Prop := ∀ w : World, (w.exec x).2.disk = w.disk

theorem keepsDisk_pure (a : α) : KeepsDisk (pure a) := fun _ => rfl

theorem keepsDisk_bind {x : Action (StateM World) α} {f : α → Action (StateM World) β}
    (hx : KeepsDisk x) (hf : ∀ a, KeepsDisk (f a)) : KeepsDisk (x >>= f) := by
  intro w
  have h := hx w
  rw [World.exec_bind]
  rcases hr : w.exec x with ⟨e | a, m⟩
  · rw [hr] at h
    exact h
  · rw [hr] at h
    exact (hf a m).trans h

theorem keepsDisk_orFail {ε : Type} (failure : ε → Failure) (x : Except ε α) :
    KeepsDisk (orFail failure x) := by
  intro w
  rw [World.exec_orFail]

theorem keepsDisk_now : KeepsDisk (ExceptT.lift (Host.now (m := StateM World))) := fun _ => rfl

theorem keepsDisk_mine (config : Mining.Config) (b : Block) :
    KeepsDisk (ExceptT.lift (Host.mine (m := StateM World) config b)) := fun _ => rfl

theorem keepsDisk_loadChain (path : Path) : KeepsDisk (loadChain path) := by
  intro w
  rw [World.exec_loadChain]

theorem keepsDisk_loadOrStart (path : Path) : KeepsDisk (loadOrStart path) := by
  intro w
  rw [World.exec_loadOrStart]

theorem keepsDisk_readChunks (file : Path) (size : UInt64) : KeepsDisk (readChunks file size) := by
  intro w
  rw [World.exec_readChunks]

end ChunkLedger.Command
