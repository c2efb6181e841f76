import ChunkLedger.Disk.Writing

/-!
# What is read after a change

A path leads through folders.  A change that leaves every folder where it is (`KeepsFolders`) leaves
a path that could be followed as it was, so what was created, written or put in a file's place is
what is read there afterwards (`read_create`, `read_append`, `read_rename`).

A run of steps succeeds if each of them does on what the ones before have left (`run_cons_eq_ok`),
and writing to a file that is there always does (`exists_run_appends`).
-/

namespace ChunkLedger

theorem bind_eq_ok {ε α β : Type} {x : Except ε α} {f : α → Except ε β} {b : β} :
    x >>= f = .ok b ↔ ∃ a, x = .ok a ∧ f a = .ok b := by
  cases x with
  | error e =>
    constructor
    · intro h
      cases h
    · rintro ⟨a, h, -⟩
      cases h
  | ok a =>
    constructor
    · intro h
      exact ⟨a, rfl, h⟩
    · rintro ⟨a', h, hf⟩
      cases h
      exact hf

namespace Disk

/-- every folder of `d` is still one of `d'` -/
structure KeepsFolders (d d' : Disk) : Prop where
  current : d'.current = d.current
  get? : ∀ l, d.get? l = some .folder → d'.get? l = some .folder

theorem keepsFolders_put (d : Disk) (l : Location) (e : Entry) : KeepsFolders d (d.put l e) := by
  refine ⟨current_put d l e, ?_⟩
  intro m hm
  by_cases htakes : d.tree.Takes l
  · have hne : l ≠ m := by
      rintro rfl
      exact htakes.2 hm
    rw [get?_put htakes, if_neg hne, hm]
  · rwa [put, dif_neg htakes]

theorem keepsFolders_erase (d : Disk) (l : Location) : KeepsFolders d (d.erase l) := by
  refine ⟨current_erase d l, ?_⟩
  intro m hm
  by_cases hfolder : d.get? l = some .folder
  · rwa [erase, dif_neg (not_not_intro hfolder)]
  · have hne : l ≠ m := by
      rintro rfl
      exact hfolder hm
    rw [get?_erase hfolder, if_neg hne, hm]

/-- The names `ns`, and after them the one that is left to be looked up, if there is one, are those
of the path. -/
def Ends (p : Path) (ns : List String) : Option String → Prop
  | none => p.steps = ns
  | some n => n ≠ "." ∧ n ≠ ".." ∧ p.steps = ns ++ [n]

theorem Ends.begins {p : Path} {ns : List String} {last : Option String} (h : Ends p ns last) :
    ns <+: p.steps := by
  cases last with
  | none => exact ⟨[], (List.append_nil ns).trans (Eq.symm h)⟩
  | some n => exact ⟨[n], h.2.2.symm⟩

/-- Wherever a path starts, it is followed along all its names, or along all but the last. -/
theorem place_cases (p : Path) :
    (∀ {d : Disk} {l : Location}, d.start p = .ok l → d.place p = .error .notFound) ∨
    ∃ ns last, Ends p ns last ∧ ∀ {d : Disk} {l : Location}, d.start p = .ok l →
      d.place p = (d.walk l ns).map fun m => ⟨m, last⟩ := by
  cases hlast : p.steps.getLast? with
  | none =>
    cases habs : p.isAbsolute with
    | false =>
      refine .inl fun hl => ?_
      simp only [place, hl, hlast, habs]
      rfl
    | true =>
      refine .inr ⟨[], none, List.getLast?_eq_none_iff.mp hlast, fun hl => ?_⟩
      simp only [place, hl, hlast, habs]
      rfl
  | some n =>
    obtain ⟨ns, hns⟩ := List.getLast?_eq_some_iff.mp hlast
    by_cases hdots : n = "." ∨ n = ".."
    · refine .inr ⟨p.steps, none, rfl, fun {d l} hl => ?_⟩
      simp only [place, hl, hlast, bind, Except.bind, if_pos hdots]
      cases d.walk l p.steps <;> rfl
    · rw [not_or] at hdots
      refine .inr ⟨ns, some n, ⟨hdots.1, hdots.2, hns⟩, fun {d l} hl => ?_⟩
      have hbefore : p.steps.dropLast = ns := by rw [hns, List.dropLast_concat]
      simp only [place, hl, hlast, bind, Except.bind, if_neg (not_or.mpr hdots), hbefore]
      cases d.walk l ns <;> rfl

/-- the way to a place -/
theorem walk_of_place {d : Disk} {p : Path} {spot : Place} (h : d.place p = .ok spot) :
    ∃ l ns, d.start p = .ok l ∧ Ends p ns spot.name ∧ d.walk l ns = .ok spot.folder := by
  obtain ⟨l, hl, -⟩ := bind_eq_ok.mp h
  rcases place_cases p with hnone | ⟨ns, last, hends, hplace⟩
  · rw [hnone hl] at h
    cases h
  · rw [hplace hl] at h
    cases hw : d.walk l ns with
    | error f => rw [hw] at h; cases h
    | ok m => rw [hw] at h; cases h; exact ⟨l, ns, hl, hends, hw⟩

section
variable {d d' : Disk}

theorem KeepsFolders.trans {d'' : Disk} (h : KeepsFolders d d') (h' : KeepsFolders d' d'') :
    KeepsFolders d d'' :=
  ⟨h'.current.trans h.current, fun l hl => h'.get? l (h.get? l hl)⟩

/-- a folder is found where it was -/
theorem KeepsFolders.find (h : KeepsFolders d d') {l : Location} {n : String}
    (hf : d.find l n = .ok (some .folder)) : d'.find l n = .ok (some .folder) := by
  obtain ⟨hl, hn, he⟩ := find_eq_ok_iff.mp hf
  exact find_eq_ok_iff.mpr ⟨h.get? l hl, hn, h.get? _ he⟩

/-- a way through folders stays -/
theorem KeepsFolders.walk (h : KeepsFolders d d') {l m : Location} {ns : List String}
    (hw : d.walk l ns = .ok m) : d'.walk l ns = .ok m := by
  induction ns generalizing l with
  | nil => exact hw
  | cons n ns ih =>
    rw [Disk.walk] at hw ⊢
    by_cases hdot : n = "."
    · rw [if_pos hdot] at hw ⊢
      exact ih hw
    · rw [if_neg hdot] at hw ⊢
      by_cases hup : n = ".."
      · rw [if_pos hup] at hw ⊢
        exact ih hw
      · rw [if_neg hup] at hw ⊢
        split at hw
        · rename_i hf
          rw [h.find hf]
          exact ih hw
        · cases hw
        · cases hw
        · cases hw

theorem KeepsFolders.start (h : KeepsFolders d d') (p : Path) : d'.start p = d.start p := by
  unfold Disk.start
  rw [h.current]

/-- a path that could be followed leads to the same place -/
theorem KeepsFolders.place (h : KeepsFolders d d') {p : Path} {spot : Place}
    (hp : d.place p = .ok spot) : d'.place p = .ok spot := by
  obtain ⟨l, hl, -⟩ := bind_eq_ok.mp hp
  rcases place_cases p with hnone | ⟨ns, last, -, hplace⟩
  · rw [hnone hl] at hp
    cases hp
  · rw [hplace hl] at hp
    rw [hplace ((h.start p).trans hl)]
    cases hw : d.walk l ns with
    | error f => rw [hw] at hp; cases hp
    | ok m => rwa [h.walk hw, ← hw]

/-- where a name is looked up something can be put, unless it would take the place of a folder -/
theorem takes_of_find {l : Location} {n : String} {e : Option Entry} (h : d.find l n = .ok e)
    (he : e ≠ some .folder) : d.tree.Takes (l ++ [n]) := by
  obtain ⟨hfolder, -, rfl⟩ := find_eq_ok_iff.mp h
  refine ⟨?_, he⟩
  rw [List.dropLast_concat]
  exact hfolder

/-- a file at the end of a path is seen there -/
theorem look_of_get? {p : Path} {l : Location} {n : String} {c : Bytes}
    (hp : d.place p = .ok ⟨l, some n⟩) (hs : p.endsWithSlash = false)
    (hn : n.utf8ByteSize ≤ maxNameLength) (he : d.get? (l ++ [n]) = some (.file c)) :
    d.look p = .ok (l ++ [n], .file c) :=
  look_eq_file_iff.mpr ⟨l, n, hp, rfl,
    find_eq_ok_iff.mpr ⟨FileTree.get?_folder he, hn, he⟩, hs⟩

theorem read_of_look {p : Path} {l : Location} {c : Bytes} (h : d.look p = .ok (l, .file c)) :
    d.read p = .ok c := by
  rw [read, h]

theorem look_of_read {p : Path} {c : Bytes} (h : d.read p = .ok c) :
    ∃ l, d.look p = .ok (l, .file c) := by
  unfold read at h
  split at h
  · cases h
  · cases h
  · rename_i l c' hl
    cases h
    exact ⟨l, hl⟩

theorem has_of_read {p : Path} {c : Bytes} (h : d.read p = .ok c) : d.has p = true := by
  obtain ⟨l, hl⟩ := look_of_read h
  rw [has, hl]
  rfl

/-! ## changes -/

/-- what creating a file does -/
theorem create_eq_ok {p : Path} (h : d.create p = .ok d') :
    ∃ l n, d.place p = .ok ⟨l, some n⟩ ∧ p.endsWithSlash = false ∧
      n.utf8ByteSize ≤ maxNameLength ∧ d.tree.Takes (l ++ [n]) ∧
        d' = d.put (l ++ [n]) (.file []) := by
  unfold create at h
  obtain ⟨⟨l, name⟩, hp, h⟩ := bind_eq_ok.mp h
  cases name with
  | none => cases h
  | some n =>
    cases hs : p.endsWithSlash with
    | true =>
      rw [hs] at h
      cases h
    | false =>
      rw [hs] at h
      obtain ⟨e, hf, h⟩ := bind_eq_ok.mp h
      split at h
      · cases h
      · rename_i hne
        obtain ⟨-, hn, -⟩ := find_eq_ok_iff.mp hf
        exact ⟨l, n, hp, rfl, hn, takes_of_find hf hne, (Except.ok.inj h).symm⟩

/-- what writing to a file does -/
theorem append_eq_ok {p : Path} {bs : Bytes} (h : d.append p bs = .ok d') :
    ∃ l c, d.look p = .ok (l, .file c) ∧ d' = d.put l (.file (c ++ bs)) := by
  unfold append at h
  split at h
  · cases h
  · cases h
  · rename_i l c hl
    exact ⟨l, c, hl, (Except.ok.inj h).symm⟩

/-- what putting a file in the place of another does -/
theorem rename_eq_ok {source target : Path} (h : d.rename source target = .ok d') :
    ∃ l m l' n c, d.place source = .ok ⟨l, some m⟩ ∧ d.place target = .ok ⟨l', some n⟩ ∧
      d.read source = .ok c ∧ target.endsWithSlash = false ∧ n.utf8ByteSize ≤ maxNameLength ∧
        d.tree.Takes (l' ++ [n]) ∧ d' = (d.erase (l ++ [m])).put (l' ++ [n]) (.file c) := by
  unfold rename at h
  obtain ⟨⟨l, name⟩, hhere, h⟩ := bind_eq_ok.mp h
  obtain ⟨⟨l', name'⟩, hthere, h⟩ := bind_eq_ok.mp h
  cases name with
  | none => cases h
  | some m =>
    cases name' with
    | none => cases h
    | some n =>
      obtain ⟨c, hc, h⟩ := bind_eq_ok.mp h
      obtain ⟨present, hf, h⟩ := bind_eq_ok.mp h
      obtain ⟨-, hn, -⟩ := find_eq_ok_iff.mp hf
      cases hs : target.endsWithSlash with
      | true =>
        rw [hs] at h
        cases h
      | false =>
        rw [hs] at h
        by_cases hfolder : present = some .folder
        · rw [if_pos hfolder] at h
          cases h
        · rw [if_neg hfolder] at h
          exact ⟨l, m, l', n, c, hhere, hthere, hc, rfl, hn, takes_of_find hf hfolder,
            (Except.ok.inj h).symm⟩

/-- a file that was created is empty -/
theorem read_create {p : Path} (h : d.create p = .ok d') : d'.read p = .ok [] := by
  obtain ⟨l, n, hp, hs, hn, htakes, rfl⟩ := create_eq_ok h
  refine read_of_look (look_of_get? ((keepsFolders_put d _ _).place hp) hs hn ?_)
  rw [get?_put htakes, if_pos rfl]

/-- a file to which something is written ends with it -/
theorem read_append {p : Path} {bs c : Bytes} (h : d.append p bs = .ok d') (hr : d.read p = .ok c) :
    d'.read p = .ok (c ++ bs) := by
  obtain ⟨l, c', hl, rfl⟩ := append_eq_ok h
  have hc : c' = c := by
    rw [read_of_look hl] at hr
    exact Except.ok.inj hr
  rw [← hc]
  exact read_of_look (look_put hl (c' ++ bs))

/-- a file that takes the place of another is read there -/
theorem read_rename {source target : Path} {c : Bytes} (h : d.rename source target = .ok d')
    (hr : d.read source = .ok c) : d'.read target = .ok c := by
  obtain ⟨l, m, l', n, c', hsource, hthere, hc', hs, hn, htakes, rfl⟩ := rename_eq_ok h
  rw [hr] at hc'
  cases hc'
  obtain ⟨k, hk⟩ := look_of_read hr
  obtain ⟨l₁, m₁, hplace, -, hfile, -⟩ := look_eq_file_iff.mp hk
  rw [hsource] at hplace
  cases hplace
  have hsourceFile : d.get? (l ++ [m]) ≠ some .folder := by
    rw [(find_eq_ok_iff.mp hfile).2.2]
    exact fun h => nomatch h
  -- the file can be put where the other was also when its own name is gone
  have herase := keepsFolders_erase d (l ++ [m])
  have htakes' : (d.erase (l ++ [m])).tree.Takes (l' ++ [n]) := by
    refine ⟨herase.get? _ htakes.1, ?_⟩
    show (d.erase (l ++ [m])).get? (l' ++ [n]) ≠ some .folder
    rw [get?_erase hsourceFile]
    split
    · exact fun h => nomatch h
    · exact htakes.2
  refine read_of_look (look_of_get? ((herase.trans (keepsFolders_put _ _ _)).place hthere) hs hn ?_)
  rw [get?_put htakes', if_pos rfl]

/-- a file takes the place of another -/
theorem exists_rename {source target : Path} {c c' : Bytes} (hs : d.read source = .ok c)
    (ht : d.read target = .ok c') : ∃ m, d.rename source target = .ok m := by
  obtain ⟨k, hk⟩ := look_of_read hs
  obtain ⟨l, n, hhere, -, -, -⟩ := look_eq_file_iff.mp hk
  obtain ⟨k', hk'⟩ := look_of_read ht
  obtain ⟨l', n', hthere, -, hfind, hslash⟩ := look_eq_file_iff.mp hk'
  refine ⟨(d.erase (l ++ [n])).put (l' ++ [n']) (.file c), ?_⟩
  rw [rename]
  refine bind_eq_ok.mpr ⟨_, hhere, bind_eq_ok.mpr ⟨_, hthere, ?_⟩⟩
  refine bind_eq_ok.mpr ⟨_, hs, bind_eq_ok.mpr ⟨_, hfind, ?_⟩⟩
  simp only [hslash]
  rfl

end

/-! ## runs -/

theorem run_cons_eq_ok {d d' : Disk} {s : Step} {ss : List Step} :
    d.run (s :: ss) = (d', .ok ()) ↔ ∃ m, d.step s = (m, .ok ()) ∧ m.run ss = (d', .ok ()) := by
  rw [run_cons]
  constructor
  · intro h
    split at h
    · rename_i m hm
      exact ⟨m, hm, h⟩
    · rename_i hne
      exact absurd h (hne d')
  · rintro ⟨m, hm, h⟩
    rw [hm]
    exact h

theorem run_append_eq_ok {d d' : Disk} {ss ts : List Step} :
    d.run (ss ++ ts) = (d', .ok ()) ↔ ∃ m, d.run ss = (m, .ok ()) ∧ m.run ts = (d', .ok ()) := by
  induction ss generalizing d with
  | nil =>
    rw [List.nil_append]
    constructor
    · intro h
      exact ⟨d, rfl, h⟩
    · rintro ⟨m, hm, h⟩
      cases hm
      exact h
  | cons s ss ih =>
    rw [List.cons_append, run_cons_eq_ok]
    constructor
    · rintro ⟨k, hk, h⟩
      obtain ⟨m, hm, h⟩ := ih.mp h
      exact ⟨m, run_cons_eq_ok.mpr ⟨k, hk, hm⟩, h⟩
    · rintro ⟨m, hm, h⟩
      obtain ⟨k, hk, hm⟩ := run_cons_eq_ok.mp hm
      exact ⟨k, hk, ih.mpr ⟨m, hm, h⟩⟩

theorem orUnchanged_eq_ok {d d' : Disk} {x : Except Fault Disk}
    (h : d.orUnchanged x = (d', .ok ())) : x = .ok d' := by
  cases x with
  | error f => cases h
  | ok m => cases h; rfl

/-- pieces can be written to a file that is there, one after the other, and are read after what it
held -/
theorem exists_run_appends {d : Disk} {p : Path} {c : Bytes} (hr : d.read p = .ok c)
    (pieces : List Bytes) : ∃ d', d.run (pieces.map (.append p)) = (d', .ok ()) ∧
      d'.read p = .ok (c ++ pieces.flatten) := by
  induction pieces generalizing d c with
  | nil =>
    refine ⟨d, rfl, ?_⟩
    rw [hr, List.flatten_nil, List.append_nil]
  | cons bs pieces ih =>
    obtain ⟨l, hl⟩ := look_of_read hr
    have happend : d.append p bs = .ok (d.put l (.file (c ++ bs))) := by
      rw [append, hl]
    obtain ⟨d', hrun, hread⟩ := ih (read_append happend hr)
    refine ⟨d', run_cons_eq_ok.mpr ⟨_, ?_, hrun⟩, ?_⟩
    · rw [step, happend]
      rfl
    · rw [hread, List.flatten_cons, List.append_assoc]

/-- pieces written to a file one after the other are read after what it held -/
theorem read_of_appends {d d' : Disk} {p : Path} {pieces : List Bytes} {c : Bytes}
    (h : d.run (pieces.map (.append p)) = (d', .ok ())) (hr : d.read p = .ok c) :
    d'.read p = .ok (c ++ pieces.flatten) := by
  obtain ⟨m, hm, hread⟩ := exists_run_appends hr pieces
  obtain rfl : d' = m := congrArg Prod.fst (h.symm.trans hm)
  exact hread

end Disk

end ChunkLedger
