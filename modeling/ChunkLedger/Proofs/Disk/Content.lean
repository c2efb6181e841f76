import ChunkLedger.Proofs.Disk.Location

/-!
# Which files a change leaves alone

A disk gives each location a content, if there is a file (`content`), and what is read at a path is
the content at its location (`content_of_read`).

* Making folders changes no content (`MakesFolders`), and nothing at all where a path could already
  be followed (`makeFoldersFrom_of_place`).
* Creating a file or writing to it changes nothing elsewhere (`ChangesOnly`).
-/

namespace ChunkLedger.Disk

/-- the content at a location, if a file is there -/
def content (d : Disk) (l : Location) : Option Bytes :=
  match d.get? l with
  | some (.file c) => some c
  | _ => none

variable {d d' : Disk}

theorem content_of_look {p : Path} {k : Location} {c : Bytes} (h : d.look p = .ok (k, .file c)) :
    k = p.location d.current ∧ d.content k = some c := by
  obtain ⟨l, n, hp, hk, -, -⟩ := look_eq_file_iff.mp h
  refine ⟨hk.trans (location_of_place hp).symm, ?_⟩
  rw [content, get?_of_look h]

/-- what is read at a path is at its location -/
theorem content_of_read {p : Path} {c : Bytes} (h : d.read p = .ok c) :
    d.content (p.location d.current) = some c := by
  obtain ⟨k, hk⟩ := look_of_read h
  obtain ⟨hloc, hc⟩ := content_of_look hk
  rw [← hloc, hc]

/-! ## one location changes -/

/-- every location but `l` has what it had, and no folder has been made -/
structure ChangesOnly (l : Location) (d d' : Disk) : Prop extends KeepsFolders d d' where
  off : ∀ m, m ≠ l → d'.get? m = d.get? m
  old : ∀ m, d'.get? m = some .folder → d.get? m = some .folder

theorem ChangesOnly.refl (l : Location) (d : Disk) : ChangesOnly l d d :=
  ⟨⟨rfl, fun _ h => h⟩, fun _ _ => rfl, fun _ h => h⟩

theorem ChangesOnly.trans {l : Location} {d'' : Disk} (h : ChangesOnly l d d')
    (h' : ChangesOnly l d' d'') : ChangesOnly l d d'' :=
  ⟨h.toKeepsFolders.trans h'.toKeepsFolders, fun m hm => (h'.off m hm).trans (h.off m hm),
    fun m hm => h.old m (h'.old m hm)⟩

theorem ChangesOnly.content {l m : Location} (h : ChangesOnly l d d') (hm : m ≠ l) :
    d'.content m = d.content m := by
  rw [Disk.content, h.off m hm, Disk.content]

theorem changesOnly_put (d : Disk) (l : Location) (c : Bytes) :
    ChangesOnly l d (d.put l (.file c)) := by
  by_cases htakes : d.tree.Takes l
  · refine ⟨keepsFolders_put d l _, ?_, ?_⟩
    · intro m hm
      rw [get?_put htakes, if_neg (Ne.symm hm)]
    · intro m hm
      rw [get?_put htakes] at hm
      split at hm
      · cases hm
      · exact hm
  · rw [put, dif_neg htakes]
    exact .refl l d

theorem changesOnly_create {p : Path} (h : d.create p = .ok d') :
    ChangesOnly (p.location d.current) d d' := by
  obtain ⟨l, n, hp, -, -, -, rfl⟩ := create_eq_ok h
  rw [location_of_place hp]
  exact changesOnly_put d _ _

theorem changesOnly_append {p : Path} {bs : Bytes} (h : d.append p bs = .ok d') :
    ChangesOnly (p.location d.current) d d' := by
  obtain ⟨k, c, hk, rfl⟩ := append_eq_ok h
  rw [← (content_of_look hk).1]
  exact changesOnly_put d _ _

/-- another name is found as it was -/
theorem ChangesOnly.find {l m : Location} {n : String} (h : ChangesOnly l d d') (hl : m ++ [n] ≠ l) :
    d'.find m n = d.find m n := by
  have hfolder : d'.get? m = some .folder ↔ d.get? m = some .folder := ⟨h.old m, h.get? m⟩
  simp only [Disk.find, ne_eq, hfolder, h.off (m ++ [n]) hl]

/-- at another location is read what was read there -/
theorem ChangesOnly.read {l : Location} {p : Path} {spot : Place} (h : ChangesOnly l d d')
    (hp : d.place p = .ok spot) (hl : p.location d.current ≠ l) : d'.read p = d.read p := by
  have hentry : d'.entryAt p spot = d.entryAt p spot := by
    rcases spot with ⟨m, _ | n⟩
    · rfl
    · rw [location_of_place hp] at hl
      simp only [entryAt, h.find hl]
  rw [Disk.read, look, h.place hp, Disk.read, look, hp]
  simp only [hentry]

/-! ## folders are made -/

/-- every location has the content that it had, and perhaps there are more folders -/
structure MakesFolders (d d' : Disk) : Prop extends KeepsFolders d d' where
  content : ∀ m, d'.content m = d.content m

theorem MakesFolders.refl (d : Disk) : MakesFolders d d := ⟨⟨rfl, fun _ h => h⟩, fun _ => rfl⟩

theorem MakesFolders.trans {d'' : Disk} (h : MakesFolders d d') (h' : MakesFolders d' d'') :
    MakesFolders d d'' :=
  ⟨h.toKeepsFolders.trans h'.toKeepsFolders, fun m => (h'.content m).trans (h.content m)⟩

/-- a folder where nothing was -/
theorem makesFolders_put {l : Location} (h : d.get? l = none) : MakesFolders d (d.put l .folder) := by
  refine ⟨keepsFolders_put d l .folder, ?_⟩
  intro m
  by_cases htakes : d.tree.Takes l
  · rw [Disk.content, get?_put htakes]
    by_cases hm : l = m
    · rw [if_pos hm, Disk.content, ← hm, h]
    · rw [if_neg hm, Disk.content]
  · rw [put, dif_neg htakes]

/-- the folders along some names, as far as they could be made -/
theorem makesFolders_makeFoldersFrom (d : Disk) (made : Bool) (l : Location) (ns : List String) :
    MakesFolders d (d.makeFoldersFrom made l ns).1 := by
  induction ns generalizing d made l with
  | nil => exact MakesFolders.refl d
  | cons n ns ih =>
    rw [makeFoldersFrom]
    by_cases hdot : n = "."
    · rw [if_pos hdot]
      exact ih d made l
    · rw [if_neg hdot]
      by_cases hup : n = ".."
      · rw [if_pos hup]
        exact ih d made l.dropLast
      · rw [if_neg hup]
        split
        · exact ih d made (l ++ [n])
        · exact MakesFolders.refl d
        · rename_i hnone
          exact (makesFolders_put (find_eq_ok_iff.mp hnone).2.2).trans (ih _ true (l ++ [n]))
        · exact MakesFolders.refl d

/-- where some names can be followed, no folder is made along a beginning of them -/
theorem makeFoldersFrom_of_walk {l m : Location} {ns : List String} (h : d.walk l ns = .ok m)
    (made : Bool) : d.makeFoldersFrom made l ns = (d, .ok ()) := by
  induction ns generalizing l with
  | nil => rfl
  | cons n ns ih =>
    rw [walk] at h
    rw [makeFoldersFrom]
    by_cases hdot : n = "."
    · rw [if_pos hdot] at h ⊢
      exact ih h
    · rw [if_neg hdot] at h ⊢
      by_cases hup : n = ".."
      · rw [if_pos hup] at h ⊢
        exact ih h
      · rw [if_neg hup] at h ⊢
        split at h
        · exact ih h
        · cases h
        · cases h
        · cases h

/-- the folder of a path that leads somewhere is not made, nor is any on the way to it -/
theorem makeFoldersFrom_of_place {p q : Path} {spot : Place} {l : Location} {ns : List String}
    (h : d.place p = .ok spot) (hq : p.parent? = some q) (hl : d.start q = .ok l)
    (hns : ns <+: q.steps) : d.makeFoldersFrom false l ns = (d, .ok ()) := by
  obtain ⟨m, hm⟩ := walk_parent?_of_place h hq hl
  obtain ⟨ms, hms⟩ := hns
  rw [← hms] at hm
  obtain ⟨k, hk, -⟩ := walk_append.mp hm
  exact makeFoldersFrom_of_walk hk false

end ChunkLedger.Disk
