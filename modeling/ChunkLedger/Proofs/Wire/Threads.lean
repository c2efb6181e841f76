import ChunkLedger.Proofs.Wire.Registry

/-!
# Threads that share a registry

Each thread has a list of calls to make.  A call is made under a lock and so in one step; whose step
comes next is left to a schedule, a list of thread numbers of any length.  So a run is an
interleaving of the threads' calls, and what is said of every schedule holds under every
interleaving.

* `Shared`        the registry, what each thread has still to do, and the log of what was called
                  and answered;
* `run`           a run by a schedule;
* `changes id`    the successful calls for an identifier, in order, each with its entry;
* `Turns`         entries come and go by turns.

One call keeps what is said of registry and log together (`Sound.call`), hence every run does
(`sound_run`).
-/

namespace ChunkLedger.Wire.Registry

/-! ## runs -/

/-- a call that has been made, and its answer -/
structure Made where
  thread : Nat
  call : Call
  answer : Answer
deriving DecidableEq

structure Shared where
  registry : Registry
  /-- the calls that each thread has still to make -/
  left : List (List Call)
  /-- the calls that have been made, the first one first -/
  log : List Made

/-- thread `i` makes its next call, if it has one -/
def Shared.step (s : Shared) (i : Nat) : Shared :=
  match s.left[i]? with
  | some (c :: rest) =>
    ⟨(s.registry.call c).1, s.left.set i rest, s.log ++ [⟨i, c, (s.registry.call c).2⟩]⟩
  | _ => s

def run (threads : List (List Call)) (schedule : List Nat) : Shared :=
  schedule.foldl Shared.step ⟨empty, threads, []⟩

/-- the calls that thread `i` has made -/
def madeBy (i : Nat) (log : List Made) : List Call :=
  (log.filter fun m => m.thread = i).map Made.call

/-- what has become of the entry of `id`, in order -/
def changes (id : String) (log : List Made) : List Change :=
  log.filterMap fun m => change? id m.call m.answer

/-- how many peers have been added -/
def additions (log : List Made) : Nat := log.countP fun m => m.answer.isAddition

/-- how many peers have been removed -/
def removals (log : List Made) : Nat := log.countP fun m => m.answer.isRemoval

theorem changes_concat (id : String) (log : List Made) (m : Made) :
    changes id (log ++ [m]) = changes id log ++ (change? id m.call m.answer).toList := by
  unfold changes
  rw [List.filterMap_append]
  cases h : change? id m.call m.answer <;> simp [h]

theorem additions_concat (log : List Made) (m : Made) :
    additions (log ++ [m]) = additions log + m.answer.isAddition.toNat := by
  unfold additions
  rw [List.countP_append, List.countP_singleton]
  cases m.answer.isAddition <;> rfl

theorem removals_concat (log : List Made) (m : Made) :
    removals (log ++ [m]) = removals log + m.answer.isRemoval.toNat := by
  unfold removals
  rw [List.countP_append, List.countP_singleton]
  cases m.answer.isRemoval <;> rfl

/-- What one call keeps, a run keeps: a step is a call of some thread, or nothing at all. -/
theorem run_induction {threads : List (List Call)} {P : Shared → Prop}
    (start : P ⟨empty, threads, []⟩)
    (call : ∀ (s : Shared) (i : Nat) (c : Call) (rest : List Call), s.left[i]? = some (c :: rest) →
      P s → P ⟨(s.registry.call c).1, s.left.set i rest, s.log ++ [⟨i, c, (s.registry.call c).2⟩]⟩)
    (schedule : List Nat) : P (run threads schedule) := by
  unfold run
  generalize (⟨empty, threads, []⟩ : Shared) = s at start
  induction schedule generalizing s with
  | nil => exact start
  | cons i schedule ih =>
    refine ih (s.step i) ?_
    unfold Shared.step
    split
    · rename_i c rest hleft
      exact call s i c rest hleft start
    · exact start

/-! ## the order of a thread's calls -/

theorem madeBy_concat (i : Nat) (log : List Made) (m : Made) :
    madeBy i (log ++ [m]) = madeBy i log ++ if m.thread = i then [m.call] else [] := by
  unfold madeBy
  split
  · rename_i h
    simp [h]
  · rename_i h
    simp [h]

/-- what a thread has done and what it has still to do are its calls, in its order -/
theorem madeBy_append_left (threads : List (List Call)) (schedule : List Nat) (i : Nat) :
    (run threads schedule).left[i]?.map (madeBy i (run threads schedule).log ++ ·)
      = threads[i]? := by
  refine run_induction (P := fun s => s.left[i]?.map (madeBy i s.log ++ ·) = threads[i]?)
    Option.map_id' ?_ schedule
  intro s j c rest hleft h
  show (s.left.set j rest)[i]?.map (madeBy i (s.log ++ _) ++ ·) = _
  rw [← h, madeBy_concat]
  by_cases hij : j = i
  · subst hij
    have hlt := (List.getElem?_eq_some_iff.mp hleft).1
    rw [List.getElem?_set_self hlt, hleft]
    simp
  · rw [List.getElem?_set_ne hij]
    simp [hij]

/-! ## entries by turns -/

/-- entries were added and removed by turns, each one removed is the one added before, and `e` is
the one that is there in the end -/
def Turns (cs : List Change) (e : Option Peer) : Prop :=
  ∃ gone : List Peer, cs = gone.flatMap (fun p => [.added p, .removed p]) ++ (e.map .added).toList

theorem Turns.nil : Turns [] none := ⟨[], rfl⟩

theorem Turns.add {cs : List Change} (h : Turns cs none) (p : Peer) :
    Turns (cs ++ [.added p]) (some p) := by
  obtain ⟨gone, rfl⟩ := h
  exact ⟨gone, by simp⟩

theorem Turns.remove {cs : List Change} {p : Peer} (h : Turns cs (some p)) :
    Turns (cs ++ [.removed p]) none := by
  obtain ⟨gone, rfl⟩ := h
  exact ⟨gone ++ [p], by simp⟩

/-- the last change tells whether there is an entry, and which -/
theorem Turns.getLast?_eq_added_iff {cs : List Change} {e : Option Peer} (h : Turns cs e)
    {p : Peer} : cs.getLast? = some (.added p) ↔ e = some p := by
  obtain ⟨gone, rfl⟩ := h
  cases e with
  | some q => simp
  | none =>
    rcases List.eq_nil_or_concat gone with rfl | ⟨gone, q, rfl⟩
    · simp
    · simp

/-- where nothing was removed there has been one addition at most -/
theorem Turns.eq_of_no_removal {cs : List Change} {e : Option Peer} (h : Turns cs e)
    (hno : ∀ p, .removed p ∉ cs) : cs = (e.map .added).toList := by
  obtain ⟨gone, rfl⟩ := h
  cases gone with
  | nil => rfl
  | cons p gone => exact absurd (by simp) (hno p)

/-! ## registry and log -/

/-- the registry is what the log makes of it -/
structure Sound (r : Registry) (log : List Made) : Prop where
  reached : r.Reached
  turns : ∀ id, Turns (changes id log) (r.find? id)
  balance : r.size + removals log = additions log

theorem Sound.start : Sound empty [] := ⟨.empty, fun _ => .nil, rfl⟩

theorem Sound.call {r : Registry} {log : List Made} (h : Sound r log) (i : Nat) (c : Call) :
    Sound (r.call c).1 (log ++ [⟨i, c, (r.call c).2⟩]) where
  reached := h.reached.after c
  turns id := by
    have ht := h.turns id
    rw [changes_concat]
    rcases call_cases r c id with ⟨hno, hsame⟩ | ⟨p, -, hadd, hwas, his⟩ | ⟨p, -, hrem, hwas, his⟩
    · rw [hno, hsame]
      simpa using ht
    · rw [hadd, his]
      rw [hwas] at ht
      exact ht.add p
    · rw [hrem, his]
      rw [hwas] at ht
      exact ht.remove
  balance := by
    have hsize := h.reached.size_call c
    have hbalance := h.balance
    rw [additions_concat, removals_concat]
    show _ + (removals log + (r.call c).2.isRemoval.toNat)
      = additions log + (r.call c).2.isAddition.toNat
    omega

theorem sound_run (threads : List (List Call)) (schedule : List Nat) :
    Sound (run threads schedule).registry (run threads schedule).log :=
  run_induction (P := fun s => Sound s.registry s.log) .start (fun _ i c _ _ h => h.call i c)
    schedule

/-! ## additions only -/

/-- where calls only add, whatever was called for is there -/
theorem contains_of_made {threads : List (List Call)} (h : ∀ t ∈ threads, ∀ c ∈ t, ∃ p, c = .add p)
    (schedule : List Nat) :
    ∀ m ∈ (run threads schedule).log,
      ∃ p, m.call = .add p ∧ (run threads schedule).registry.contains p.id = true := by
  suffices hrun : (∀ m ∈ (run threads schedule).log,
        ∃ p, m.call = .add p ∧ (run threads schedule).registry.contains p.id = true) ∧
      ∀ t ∈ (run threads schedule).left, ∀ c ∈ t, ∃ p, c = .add p from hrun.1
  -- that what is left to do only adds has to be carried along
  refine run_induction (P := fun s => (∀ m ∈ s.log, ∃ p, m.call = .add p ∧
    s.registry.contains p.id = true) ∧ ∀ t ∈ s.left, ∀ c ∈ t, ∃ p, c = .add p) ?_ ?_ schedule
  · exact ⟨fun m hm => absurd hm List.not_mem_nil, h⟩
  rintro s i c rest hi ⟨hlog, hleft⟩
  have hmem := List.mem_of_getElem? hi
  obtain ⟨p, rfl⟩ := hleft _ hmem c List.mem_cons_self
  constructor
  · intro m hm
    rcases List.mem_append.mp hm with hm | hm
    · obtain ⟨q, hq, hknown⟩ := hlog m hm
      exact ⟨q, hq, contains_add_of_contains p hknown⟩
    · obtain rfl := List.mem_singleton.mp hm
      exact ⟨p, rfl, contains_add s.registry p⟩
  · intro t ht
    rcases List.mem_or_eq_of_mem_set ht with ht | rfl
    · exact hleft t ht
    · exact fun c hc => hleft _ hmem c (List.mem_cons_of_mem _ hc)

theorem changes_of_additions {log : List Made} (h : ∀ m ∈ log, ∃ p, m.call = .add p) {id : String}
    (p : Peer) : .removed p ∉ changes id log := by
  intro hp
  obtain ⟨m, hm, hchange⟩ := List.mem_filterMap.mp hp
  obtain ⟨q, hq⟩ := h m hm
  rw [hq] at hchange
  exact change?_add_ne_removed id q p m.answer hchange

/-! ## every interleaving -/

/-- **One entry per identifier, under every interleaving.**  Whatever the schedule, each thread's
calls are made in its order; no identifier occurs twice; the successful calls for an identifier add
and remove by turns, beginning with an addition, and what is removed is what was added last; an
identifier is known exactly if the last of them was an addition, and then its entry is the one that
was added and the one that `remove` would give back.  A peer is refused exactly if its identifier is
known, and this changes nothing.  The size is what was added less what was removed.  If no thread
removes anything, then of all that were to be added under one identifier exactly one was. -/
theorem turns_of_run (threads : List (List Call)) (schedule : List Nat) :
    let s := run threads schedule
    (∀ i, s.left[i]?.map (madeBy i s.log ++ ·) = threads[i]?) ∧
    (s.registry.peers.map Peer.id).Nodup ∧
    (∀ id, Turns (changes id s.log) (s.registry.find? id) ∧
      (s.registry.contains id = true ↔ ∃ p, (changes id s.log).getLast? = some (.added p)) ∧
      ∀ p, (changes id s.log).getLast? = some (.added p) →
        p.id = id ∧ s.registry.find? id = some p ∧ (s.registry.remove id).2 = some p) ∧
    (∀ p, ((s.registry.add p).2 = false ↔ s.registry.contains p.id = true) ∧
      ((s.registry.add p).2 = false → (s.registry.add p).1 = s.registry)) ∧
    s.registry.size + removals s.log = additions s.log ∧
    ((∀ t ∈ threads, ∀ c ∈ t, ∃ p, c = .add p) → ∀ m ∈ s.log, ∀ p, m.call = .add p →
      ∃ q, q.id = p.id ∧ changes p.id s.log = [.added q]) := by
  intro s
  have hsound : Sound s.registry s.log := sound_run threads schedule
  refine ⟨madeBy_append_left threads schedule, hsound.reached.nodup,
    fun id => ⟨hsound.turns id, ?_, ?_⟩, fun p => ⟨add_refused_iff, add_of_refused⟩,
    hsound.balance, ?_⟩
  · simp only [contains_iff, (hsound.turns id).getLast?_eq_added_iff]
  · intro p hp
    have hfind := (hsound.turns id).getLast?_eq_added_iff.mp hp
    exact ⟨id_of_find? hfind, hfind, hfind⟩
  · intro hadd m hm p hp
    have hmade := contains_of_made hadd schedule
    obtain ⟨p', hp', hknown⟩ := hmade m hm
    rw [hp] at hp'
    cases hp'
    obtain ⟨q, hq⟩ := contains_iff.mp hknown
    have hno (e : Peer) : .removed e ∉ changes p.id s.log :=
      changes_of_additions (fun m hm => (hmade m hm).imp fun _ h => h.1) e
    have hturns := (hsound.turns p.id).eq_of_no_removal hno
    exact ⟨q, id_of_find? hq, hturns.trans (congrArg (fun e => (e.map Change.added).toList) hq)⟩

/-- two threads that want to add a peer under one identifier, each its own -/
def contended : List (List Call) :=
  [[.add ⟨"a", "10.0.0.1", .epoch⟩],
    [.add ⟨"b", "10.0.0.2", .epoch⟩, .add ⟨"a", "10.0.0.9", .epoch⟩]]

theorem turns_of_run_contended :
    (∀ t ∈ contended, ∀ c ∈ t, ∃ p, c = .add p) ∧
      ⟨0, .add ⟨"a", "10.0.0.1", .epoch⟩, .added false⟩ ∈ (run contended [1, 1, 0]).log ∧
      ∃ q, q.id = "a" ∧ changes "a" (run contended [1, 1, 0]).log = [.added q] := by
  have hadd : ∀ t ∈ contended, ∀ c ∈ t, ∃ p, c = .add p := by
    simp [contended]
  have hrefused : ⟨0, .add ⟨"a", "10.0.0.1", .epoch⟩, .added false⟩
      ∈ (run contended [1, 1, 0]).log := by
    decide +kernel
  obtain ⟨-, -, -, -, -, hone⟩ := turns_of_run contended [1, 1, 0]
  exact ⟨hadd, hrefused, hone hadd _ hrefused _ rfl⟩

end ChunkLedger.Wire.Registry
