import ChunkLedger.Disk.Basic

/-!
# Writing in pieces

A file that grows by one piece and then by another is the file that grows by both at once
(`append_append`), for nothing that a path goes through changes when a file gets another content
(`place_put`).  So steps can be put together before they are carried out (`run_eq_runEach`), and
`run` goes step by step (`run_cons`).
-/

namespace ChunkLedger.Disk

/-- a name is looked up in a folder -/
theorem find_eq_ok_iff {d : Disk} {l : Location} {n : String} {e : Option Entry} :
    d.find l n = .ok e ↔
      d.get? l = some .folder ∧ n.utf8ByteSize ≤ maxNameLength ∧ d.get? (l ++ [n]) = e := by
  unfold find
  split
  · rename_i h
    exact ⟨nofun, fun hall => absurd hall.1 h⟩
  · rename_i h
    split
    · rename_i hlong
      exact ⟨nofun, fun hall => absurd hall.2.1 (Nat.not_le.mpr hlong)⟩
    · rename_i hshort
      exact ⟨fun he => ⟨Decidable.not_not.mp h, Nat.le_of_not_lt hshort, Except.ok.inj he⟩,
        fun hall => congrArg Except.ok hall.2.2⟩

theorem find_eq_error_iff {d : Disk} {l : Location} {n : String} {f : Fault} :
    d.find l n = .error f ↔ d.get? l ≠ some .folder ∧ f = .notFound ∨
      d.get? l = some .folder ∧ maxNameLength < n.utf8ByteSize ∧ f = .tooLong := by
  unfold find
  by_cases hfolder : d.get? l = some .folder
  · rw [if_neg (not_not_intro hfolder)]
    split
    · rename_i hlong
      simp [hfolder, hlong, eq_comm]
    · rename_i hshort
      simp [hfolder, hshort]
  · simp [hfolder, eq_comm]

/-- where a file is, another content can be put -/
theorem takes_of_file {d : Disk} {k : Location} {c : Bytes} (h : d.get? k = some (.file c)) :
    d.tree.Takes k := by
  have hfile : d.get? k ≠ some .folder := by
    rw [h]
    exact fun h => nomatch h
  have hroot : k ≠ [] := by
    rintro rfl
    exact hfile rfl
  rw [← List.dropLast_concat_getLast hroot] at h
  exact ⟨FileTree.get?_folder h, hfile⟩

/-- of two contents of one file the later one stays -/
theorem put_put (d : Disk) (l : Location) (c c' : Bytes) :
    (d.put l (.file c)).put l (.file c') = d.put l (.file c') := by
  by_cases h : d.tree.Takes l
  · have hfile : (d.put l (.file c)).get? l = some (.file c) := by rw [get?_put h, if_pos rfl]
    have hmap : (d.tree.entries.insert l (.file c)).insert l (.file c')
        = d.tree.entries.insert l (.file c') := by
      apply Std.ExtTreeMap.ext_getElem?
      intro k
      simp only [Std.ExtTreeMap.getElem?_insert]
      split <;> rfl
    rw [put, dif_pos (takes_of_file hfile)]
    simp only [put, dif_pos h, FileTree.put, hmap]
  · simp only [put, dif_neg h]

/-- another content of a file makes no folder and takes none away -/
theorem get?_put_eq_folder {d : Disk} {k : Location} {c : Bytes} (h : d.get? k = some (.file c))
    (c' : Bytes) (l : Location) :
    (d.put k (.file c')).get? l = some .folder ↔ d.get? l = some .folder := by
  rw [get?_put (takes_of_file h)]
  split
  · rename_i hk
    rw [← hk, h]
    exact iff_of_false nofun nofun
  · rfl

/-- what is found where a file got another content -/
theorem find_put {d : Disk} {k : Location} {c : Bytes} (h : d.get? k = some (.file c)) (c' : Bytes)
    (l : Location) (n : String) :
    (d.put k (.file c')).find l n
      = if k = l ++ [n] then (d.find l n).map fun _ => some (.file c') else d.find l n := by
  unfold find
  rw [get?_put (takes_of_file h) (l ++ [n])]
  by_cases hfolder : d.get? l = some .folder
  · rw [if_neg (not_not_intro ((get?_put_eq_folder h c' l).2 hfolder)),
      if_neg (not_not_intro hfolder)]
    by_cases hlong : maxNameLength < n.utf8ByteSize
    · rw [if_pos hlong, if_pos hlong]
      exact (ite_self _).symm
    · rw [if_neg hlong, if_neg hlong, apply_ite Except.ok]
      rfl
  · rw [if_pos (mt (get?_put_eq_folder h c' l).1 hfolder), if_pos hfolder]
    exact (ite_self _).symm

/-- another content of a file leaves the way of every path as it is -/
theorem walk_put {d : Disk} {k : Location} {c : Bytes} (h : d.get? k = some (.file c)) (c' : Bytes)
    (l : Location) (ns : List String) : (d.put k (.file c')).walk l ns = d.walk l ns := by
  induction ns generalizing l with
  | nil => rfl
  | cons n ns ih =>
    rw [walk, walk, ih, ih, ih, find_put h c' l n]
    by_cases hk : k = l ++ [n]
    · rw [if_pos hk]
      cases hf : d.find l n with
      | error f => rfl
      | ok e =>
        obtain rfl : some (.file c) = e := by rw [← (find_eq_ok_iff.1 hf).2.2, ← hk, h]
        rfl
    · rw [if_neg hk]

theorem place_put {d : Disk} {k : Location} {c : Bytes} (h : d.get? k = some (.file c)) (c' : Bytes)
    (p : Path) : (d.put k (.file c')).place p = d.place p := by
  have walked := walk_put h c'
  have hs : (d.put k (.file c')).start p = d.start p := by rw [start, start, current_put]
  simp only [place, hs, walked]

/-- a file is seen at a named place, by a path without a slash at its end -/
theorem look_eq_file_iff {d : Disk} {p : Path} {k : Location} {c : Bytes} :
    d.look p = .ok (k, .file c) ↔ ∃ l n, d.place p = .ok ⟨l, some n⟩ ∧ k = l ++ [n] ∧
      d.find l n = .ok (some (.file c)) ∧ p.endsWithSlash = false := by
  unfold look entryAt
  constructor
  · intro h
    split at h
    · simp at h
    · rename_i spot hp
      split at h
      · simp at h
      · rename_i l n
        split at h
        · simp at h
        · simp at h
        · simp at h
        · rename_i b hf
          cases hs : p.endsWithSlash with
          | true => simp [hs] at h
          | false =>
            simp only [hs, Bool.false_eq_true, if_false, Except.ok.injEq, Prod.mk.injEq,
              Entry.file.injEq] at h
            exact ⟨l, n, hp, h.1.symm, by rw [hf, h.2], rfl⟩
  · rintro ⟨l, n, hp, hk, hf, hs⟩
    simp [hp, hf, hs, hk]

theorem get?_of_look {d : Disk} {p : Path} {k : Location} {c : Bytes}
    (h : d.look p = .ok (k, .file c)) : d.get? k = some (.file c) := by
  obtain ⟨l, n, _, hk, hf, _⟩ := look_eq_file_iff.1 h
  rw [hk]
  exact (find_eq_ok_iff.1 hf).2.2

/-- where a file is seen, the content put there is seen -/
theorem look_put {d : Disk} {p : Path} {k : Location} {c : Bytes} (h : d.look p = .ok (k, .file c))
    (c' : Bytes) : (d.put k (.file c')).look p = .ok (k, .file c') := by
  have hg : d.get? k = some (.file c) := get?_of_look h
  obtain ⟨l, n, hp, hk, hf, hs⟩ := look_eq_file_iff.1 h
  refine look_eq_file_iff.2 ⟨l, n, by rw [place_put hg, hp], hk, ?_, hs⟩
  obtain ⟨hfolder, hn, -⟩ := find_eq_ok_iff.1 hf
  refine find_eq_ok_iff.2 ⟨(get?_put_eq_folder hg c' l).2 hfolder, hn, ?_⟩
  rw [← hk, get?_put (takes_of_file hg), if_pos rfl]

/-- two pieces are written like the one that they make -/
theorem append_append {d d' : Disk} {p : Path} {bs : Bytes} (h : d.append p bs = .ok d')
    (cs : Bytes) : d'.append p cs = d.append p (bs ++ cs) := by
  unfold append at h
  split at h
  · simp at h
  · simp at h
  · rename_i k c hl
    have hd : d.put k (.file (c ++ bs)) = d' := Except.ok.inj h
    rw [← hd]
    unfold append
    rw [look_put hl, hl]
    simp only [put_put, List.append_assoc]

/-- a file that takes one piece takes every piece -/
theorem append_eq_error {d : Disk} {p : Path} {bs : Bytes} {f : Fault}
    (h : d.append p bs = .error f) (cs : Bytes) : d.append p cs = .error f := by
  unfold append at h ⊢
  split at h <;> simp_all

theorem runEach_before (d : Disk) (s : Step) (ss : List Step) :
    d.runEach (s.before ss) = d.runEach (s :: ss) := by
  unfold Step.before
  split
  · rename_i p bs q cs rest
    split
    · rename_i hpq
      rw [← hpq, runEach, runEach, step, step]
      cases h : d.append p bs with
      | error f =>
        rw [append_eq_error h (bs ++ cs)]
        rfl
      | ok d' =>
        show _ = d'.runEach (.append p cs :: rest)
        rw [runEach, step, append_append h cs]
        cases h' : d.append p (bs ++ cs) with
        | ok d'' => rfl
        | error f => exact absurd ((append_eq_error h' bs).symm.trans h) (by simp)
    · rfl
  · rfl

/-- putting pieces together first makes no difference -/
theorem run_eq_runEach (d : Disk) (ss : List Step) : d.run ss = d.runEach ss := by
  unfold run
  induction ss generalizing d with
  | nil => rfl
  | cons s ss ih =>
    rw [List.foldr_cons, runEach_before, runEach, runEach]
    split
    · exact ih _
    · rfl

theorem run_cons (d : Disk) (s : Step) (ss : List Step) :
    d.run (s :: ss) = match d.step s with
      | (d, .ok ()) => d.run ss
      | r => r := by
  simp only [run_eq_runEach]
  rfl

end ChunkLedger.Disk
