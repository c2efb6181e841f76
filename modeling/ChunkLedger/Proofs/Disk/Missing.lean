import ChunkLedger.Proofs.Disk.Content

/-!
# Paths through folders that are missing

What is there is in a folder, so nothing is below what is none (`get?_of_missing`), and when a
missing folder is made, nothing is in it but folders that are as new (`New`).  A path that only goes
down is lost in them as it was before: it is read as it was, as long as no folder is made at its own
end (`MakesFolders.read`), and those that lead there are not (`get?_makeFoldersFrom`).  Only a name
that is too long is not noticed before there is a folder in which to look it up (`Missed`).

With `..` a path may come back from a new folder to what has been there all the time.
-/

namespace ChunkLedger.Disk

variable {d d' : Disk}

/-! ## going down -/

/-- without `..` each name leads on from where the ones before have led -/
theorem prefix_foldl_move {ns : List String} (h : ".." ∉ ns) (l : Location) :
    l <+: ns.foldl Location.move l := by
  induction ns generalizing l with
  | nil => exact List.prefix_refl l
  | cons n ns ih =>
    rw [List.mem_cons, not_or] at h
    rw [List.foldl_cons]
    refine List.IsPrefix.trans ?_ (ih h.2 _)
    rw [Location.move, if_neg (Ne.symm h.1)]
    split
    · exact List.prefix_refl l
    · exact List.prefix_append l [n]

theorem foldl_move_mono {ns ms : List String} (h : ns <+: ms) (hms : ".." ∉ ms) (l : Location) :
    ns.foldl Location.move l <+: ms.foldl Location.move l := by
  obtain ⟨ks, rfl⟩ := h
  rw [List.foldl_append]
  exact prefix_foldl_move (fun hks => hms (List.mem_append_right ns hks)) _

/-- folders are made only where the names lead -/
theorem get?_makeFoldersFrom {ns : List String} (hns : ".." ∉ ns) {l m : Location}
    (hm : ¬m <+: ns.foldl Location.move l) (made : Bool) :
    (d.makeFoldersFrom made l ns).1.get? m = d.get? m := by
  induction ns generalizing d made l with
  | nil => rfl
  | cons n ns ih =>
    rw [List.mem_cons, not_or] at hns
    rw [List.foldl_cons, Location.move] at hm
    rw [makeFoldersFrom]
    by_cases hdot : n = "."
    · rw [if_pos hdot] at hm ⊢
      exact ih hns.2 hm made
    · rw [if_neg hdot, if_neg (Ne.symm hns.1)] at hm ⊢
      split
      · exact ih hns.2 hm made
      · rfl
      · rename_i hnone
        have hne : l ++ [n] ≠ m := by
          rintro rfl
          exact hm (prefix_foldl_move hns.2 _)
        have htakes : d.tree.Takes (l ++ [n]) := takes_of_find hnone (Option.some_ne_none _).symm
        rw [ih hns.2 hm true, get?_put htakes, if_neg hne]
      · rfl

section
variable {x : Location}

/-- a way down that does not pass the location that changes is what it was -/
theorem ChangesOnly.walk (h : ChangesOnly x d d') {ns : List String} (hns : ".." ∉ ns)
    {l : Location} (hx : ¬x <+: ns.foldl Location.move l) : d'.walk l ns = d.walk l ns := by
  induction ns generalizing l with
  | nil => rfl
  | cons n ns ih =>
    rw [List.mem_cons, not_or] at hns
    rw [List.foldl_cons, Location.move] at hx
    rw [Disk.walk, Disk.walk]
    by_cases hdot : n = "."
    · rw [if_pos hdot] at hx
      rw [if_pos hdot, if_pos hdot, ih hns.2 hx]
    · rw [if_neg hdot, if_neg (Ne.symm hns.1)] at hx
      have hne : l ++ [n] ≠ x := by
        rintro rfl
        exact hx (prefix_foldl_move hns.2 _)
      rw [if_neg hdot, if_neg hdot, if_neg (Ne.symm hns.1), if_neg (Ne.symm hns.1), h.find hne,
        ih hns.2 hx]

theorem ChangesOnly.place (h : ChangesOnly x d d') {p : Path} (hdown : ".." ∉ p.steps)
    (hx : ¬x <+: p.location d.current) : d'.place p = d.place p := by
  cases hl : d.start p with
  | error f => rw [Disk.place, h.start, hl, Disk.place, hl]; rfl
  | ok l =>
    have hl' : d'.start p = .ok l := (h.start p).trans hl
    rcases place_cases p with hnone | ⟨ns, last, hends, hplace⟩
    · rw [hnone hl, hnone hl']
    · rw [Path.location, ← start_eq_ok hl] at hx
      have hx' : ¬x <+: ns.foldl Location.move l :=
        fun h => hx (h.trans (foldl_move_mono hends.begins hdown l))
      rw [hplace hl, hplace hl', h.walk (fun hup => hdown (hends.begins.subset hup)) hx']

/-- a path that only goes down, and does not pass the location that changes, is read as before -/
theorem ChangesOnly.read_down (h : ChangesOnly x d d') {p : Path} (hdown : ".." ∉ p.steps)
    (hx : ¬x <+: p.location d.current) : d'.read p = d.read p := by
  cases hp : d.place p with
  | ok spot =>
    refine h.read hp ?_
    rintro rfl
    exact hx (List.prefix_refl _)
  | error f =>
    rw [Disk.read, look, h.place hdown hx, Disk.read, look, hp]

end

/-! ## folders that were missing -/

/-- nothing is below what is no folder -/
theorem get?_of_missing {l : Location} (h : d.get? l ≠ some .folder) (n : String) :
    d.get? (l ++ [n]) = none := by
  cases he : d.get? (l ++ [n]) with
  | none => rfl
  | some e => exact absurd (FileTree.get?_folder he) h

/-- there is a folder now, and there was none -/
def New (d d' : Disk) (l : Location) : Prop :=
  d.get? l ≠ some .folder ∧ d'.get? l = some .folder

/-- what comes of looking for names where there is nothing; a name may be too long to look for -/
def Missed (ns : List String) (f : Fault) : Prop :=
  f = .notFound ∨ f = .tooLong ∧ ∃ n ∈ ns, maxNameLength < n.utf8ByteSize

theorem Missed.mono {ns ms : List String} {f : Fault} (h : Missed ns f) (hsub : ns ⊆ ms) :
    Missed ms f :=
  h.imp_right fun ⟨hf, n, hn, hlong⟩ => ⟨hf, n, hsub hn, hlong⟩

/-- what comes of following names from a new folder: they are missed, or lead to a new folder -/
def Strays (d d' : Disk) (ns : List String) (r : Except Fault Location) : Prop :=
  (∃ f, Missed ns f ∧ r = .error f) ∨ ∃ m, r = .ok m ∧ New d d' m

theorem Strays.cons {ns : List String} {r : Except Fault Location} (h : Strays d d' ns r)
    (n : String) : Strays d d' (n :: ns) r :=
  h.imp_left fun ⟨f, hf, hr⟩ => ⟨f, hf.mono (List.subset_cons_self n ns), hr⟩

theorem content_eq_some_iff {l : Location} {c : Bytes} :
    d.content l = some c ↔ d.get? l = some (.file c) := by
  rw [content]
  rcases d.get? l with _ | ⟨b⟩ | _ <;> simp

section
variable (h : MakesFolders d d')
include h

theorem MakesFolders.get?_eq_file_iff {l : Location} {c : Bytes} :
    d'.get? l = some (.file c) ↔ d.get? l = some (.file c) := by
  rw [← content_eq_some_iff, h.content, content_eq_some_iff]

/-- folders are made where there was nothing -/
theorem MakesFolders.get?_of_new {l : Location} (hl : New d d' l) : d.get? l = none := by
  rcases hbefore : d.get? l with _ | c | _
  · rfl
  · rw [← h.get?_eq_file_iff, hl.2] at hbefore
    cases hbefore
  · exact absurd hbefore hl.1

/-- where no folder has been made everything is as it was -/
theorem MakesFolders.get?_of_not_new {l : Location} (hl : ¬New d d' l) : d'.get? l = d.get? l := by
  rcases hafter : d'.get? l with _ | c | _
  · rcases hbefore : d.get? l with _ | c | _
    · rfl
    · rw [h.get?_eq_file_iff.mpr hbefore] at hafter
      cases hafter
    · rw [h.get? l hbefore] at hafter
      cases hafter
  · exact (h.get?_eq_file_iff.mp hafter).symm
  · exact not_not.mp fun hbefore => hl ⟨Ne.symm hbefore, hafter⟩

/-- what is found in a folder is what was found there, unless one of the two is new -/
theorem MakesFolders.find_cases (l : Location) (n : String) :
    d'.find l n = d.find l n ∨ (New d d' l ∧ d.find l n = .error .notFound) ∨
      (New d d' (l ++ [n]) ∧ d.find l n = .ok none ∧ d'.find l n = .ok (some .folder)) := by
  by_cases hl : d.get? l = some .folder
  · have hl' := h.get? l hl
    by_cases hnew : New d d' (l ++ [n])
    · rcases Nat.lt_or_ge maxNameLength n.utf8ByteSize with hlong | hshort
      · rw [find_eq_error_iff.mpr (.inr ⟨hl, hlong, rfl⟩),
          find_eq_error_iff.mpr (.inr ⟨hl', hlong, rfl⟩)]
        exact .inl rfl
      · exact .inr (.inr ⟨hnew, find_eq_ok_iff.mpr ⟨hl, hshort, h.get?_of_new hnew⟩,
          find_eq_ok_iff.mpr ⟨hl', hshort, hnew.2⟩⟩)
    · rw [Disk.find, Disk.find, hl, hl', h.get?_of_not_new hnew]
      exact .inl rfl
  · have hfind : d.find l n = .error .notFound := find_eq_error_iff.mpr (.inl ⟨hl, rfl⟩)
    by_cases hl' : d'.get? l = some .folder
    · exact .inr (.inl ⟨⟨hl, hl'⟩, hfind⟩)
    · exact .inl ((find_eq_error_iff.mpr (.inl ⟨hl', rfl⟩)).trans hfind.symm)

/-- below what was no folder are only folders, which are new -/
theorem MakesFolders.find_of_missing {l : Location} {n : String} (hl : d.get? l ≠ some .folder) :
    (∃ f, Missed [n] f ∧ d'.find l n = .error f) ∨ d'.find l n = .ok none ∨
      d'.find l n = .ok (some .folder) ∧ New d d' (l ++ [n]) := by
  have hnone := get?_of_missing hl n
  unfold Disk.find
  split
  · exact .inl ⟨_, .inl rfl, rfl⟩
  · split
    · rename_i hlong
      exact .inl ⟨_, .inr ⟨rfl, n, List.mem_singleton_self n, hlong⟩, rfl⟩
    · by_cases hnew : New d d' (l ++ [n])
      · exact .inr (.inr ⟨congrArg _ hnew.2, hnew⟩)
      · exact .inr (.inl (congrArg _ ((h.get?_of_not_new hnew).trans hnone)))

theorem MakesFolders.walk_of_new {ns : List String} (hns : ".." ∉ ns) {l : Location}
    (hl : New d d' l) : Strays d d' ns (d'.walk l ns) := by
  induction ns generalizing l with
  | nil => exact .inr ⟨l, rfl, hl⟩
  | cons n ns ih =>
    rw [List.mem_cons, not_or] at hns
    rw [Disk.walk]
    by_cases hdot : n = "."
    · rw [if_pos hdot]
      exact (ih hns.2 hl).cons n
    · rw [if_neg hdot, if_neg (Ne.symm hns.1)]
      rcases h.find_of_missing (n := n) hl.1 with ⟨f, hf, hfind⟩ | hfind | ⟨hfind, hnew⟩
      · rw [hfind]
        exact .inl ⟨f, hf.mono (by simp), rfl⟩
      · rw [hfind]
        exact .inl ⟨_, .inl rfl, rfl⟩
      · rw [hfind]
        exact (ih hns.2 hnew).cons n

/-- a way down that could not be followed still cannot, unless it goes on through new folders -/
theorem MakesFolders.walk_of_error {ns : List String} (hns : ".." ∉ ns) {l : Location} {f : Fault}
    (hw : d.walk l ns = .error f) :
    d'.walk l ns = .error f ∨ f = .notFound ∧ Strays d d' ns (d'.walk l ns) := by
  induction ns generalizing l with
  | nil => cases hw
  | cons n ns ih =>
    rw [List.mem_cons, not_or] at hns
    rw [Disk.walk] at hw ⊢
    by_cases hdot : n = "."
    · rw [if_pos hdot] at hw ⊢
      exact (ih hns.2 hw).imp_right (And.imp_right fun hs => hs.cons n)
    · rw [if_neg hdot, if_neg (Ne.symm hns.1)] at hw ⊢
      rcases h.find_cases l n with hsame | ⟨hnew, hf⟩ | ⟨hnew, hf, hf'⟩
      · rw [hsame]
        rcases hf : d.find l n with g | _ | c | _
        · rw [hf] at hw
          exact .inl hw
        · rw [hf] at hw
          exact .inl hw
        · rw [hf] at hw
          exact .inl hw
        · rw [hf] at hw
          exact (ih hns.2 hw).imp_right (And.imp_right fun hs => hs.cons n)
      · rw [hf] at hw
        cases hw
        have hstrays := h.walk_of_new (List.not_mem_cons_of_ne_of_not_mem hns.1 hns.2) hnew
        rw [Disk.walk, if_neg hdot, if_neg (Ne.symm hns.1)] at hstrays
        exact .inr ⟨rfl, hstrays⟩
      · rw [hf] at hw
        cases hw
        rw [hf']
        exact .inr ⟨rfl, (h.walk_of_new hns.2 hnew).cons n⟩

theorem MakesFolders.place_of_error {p : Path} (hdown : ".." ∉ p.steps) {f : Fault}
    (hp : d.place p = .error f) :
    d'.place p = .error f ∨ f = .notFound ∧
      ((∃ g, Missed p.steps g ∧ d'.place p = .error g) ∨
        ∃ spot, d'.place p = .ok spot ∧ New d d' spot.folder) := by
  cases hl : d.start p with
  | error g =>
    rw [Disk.place, hl] at hp
    rw [Disk.place, h.start, hl]
    exact .inl hp
  | ok l =>
    have hl' : d'.start p = .ok l := (h.start p).trans hl
    rcases place_cases p with hnone | ⟨ns, last, hends, hplace⟩
    · rw [hnone hl] at hp
      exact .inl ((hnone hl').trans hp)
    · rw [hplace hl] at hp
      rw [hplace hl']
      have hsub : ns ⊆ p.steps := hends.begins.subset
      cases hw : d.walk l ns with
      | ok m => rw [hw] at hp; cases hp
      | error g =>
        rw [hw] at hp
        cases hp
        rcases h.walk_of_error (fun hup => hdown (hsub hup)) hw with
          hw' | ⟨hf, ⟨g, hg, hw'⟩ | ⟨m, hw', hm⟩⟩
        · exact .inl (by rw [hw']; rfl)
        · exact .inr ⟨hf, .inl ⟨g, hg.mono hsub, by rw [hw']; rfl⟩⟩
        · exact .inr ⟨hf, .inr ⟨⟨m, last⟩, by rw [hw']; rfl, hm⟩⟩

/-- a path whose last name is looked for where no folder was is lost, if no folder is made there -/
theorem MakesFolders.read_of_missing {p : Path} {m : Location} {n : String}
    (hp : d'.place p = .ok ⟨m, some n⟩) (hm : d.get? m ≠ some .folder)
    (hhere : ¬New d d' (p.location d.current)) : ∃ f, Missed p.steps f ∧ d'.read p = .error f := by
  have hloc := location_of_place hp
  obtain ⟨l, ns, -, ⟨-, -, hns⟩, -⟩ := walk_of_place hp
  have hmem : [n] ⊆ p.steps := by
    rw [hns]
    exact List.subset_append_right ns [n]
  rw [h.current] at hloc
  rw [Disk.read, look, hp]
  simp only [entryAt]
  rcases h.find_of_missing (n := n) hm with ⟨f, hf, hfind⟩ | hfind | ⟨-, hnew⟩
  · rw [hfind]
    exact ⟨f, hf.mono hmem, rfl⟩
  · rw [hfind]
    exact ⟨_, .inl rfl, rfl⟩
  · exact absurd (hloc ▸ hnew) hhere

/-- **A path that only goes down is read as before** when folders are made, if none is made at its
own end.  If it leads through folders that were missing it leads to nothing either way, and is
refused in another way only if it has a name that is too long. -/
theorem MakesFolders.read {p : Path} (hdown : ".." ∉ p.steps)
    (hhere : ¬New d d' (p.location d.current)) :
    d'.read p = d.read p ∨
      d.read p = .error .notFound ∧ ∃ f, Missed p.steps f ∧ d'.read p = .error f := by
  cases hp : d.place p with
  | ok spot =>
    have hp' := h.place hp
    rcases spot with ⟨m, _ | n⟩
    · exact .inl (by rw [Disk.read, look, hp', Disk.read, look, hp]; rfl)
    · by_cases hm : d.get? m = some .folder
      · rw [location_of_place hp] at hhere
        have hfind : d'.find m n = d.find m n := by
          rw [Disk.find, Disk.find, h.get? m hm, hm, h.get?_of_not_new hhere]
        exact .inl (by simp only [Disk.read, look, hp, hp', entryAt, hfind])
      · have hfind : d.find m n = .error .notFound := find_eq_error_iff.mpr (.inl ⟨hm, rfl⟩)
        refine .inr ⟨?_, h.read_of_missing hp' hm hhere⟩
        simp only [Disk.read, look, hp, entryAt, hfind]
  | error f =>
    have hread : d.read p = .error f := by rw [Disk.read, look, hp]
    rw [hread]
    rcases h.place_of_error hdown hp with hp' | ⟨rfl, ⟨g, hg, hp'⟩ | ⟨⟨m, _ | n⟩, hp', hm⟩⟩
    · exact .inl (by rw [Disk.read, look, hp'])
    · exact .inr ⟨rfl, g, hg, by rw [Disk.read, look, hp']⟩
    · -- the path would end at the new folder itself
      obtain ⟨l, _, hl, rfl, hw⟩ := walk_of_place hp'
      refine absurd ?_ hhere
      rw [Path.location, ← h.current, ← start_eq_ok hl, ← walk_eq_foldl hw]
      exact hm
    · exact .inr ⟨rfl, h.read_of_missing hp' hm.1 hhere⟩

end

end ChunkLedger.Disk
