import ChunkLedger.Proofs.Block.Record
import ChunkLedger.Proofs.Chain.Built
import ChunkLedger.Proofs.Disk.Reading

/-!
# Chain files are read back

A chain's text is read as its blocks (`readBlocks_toText`), and saving leaves the text at the path
(`read_of_save`).  So a chain that has come about by any operations is loaded as it was saved, with
its indices (`load_of_save`).
-/

namespace ChunkLedger

/-! ## the text -/

namespace Chain

theorem whole_toValue (c : Chain) : c.toValue.Whole := by
  rw [toValue, Json.Value.Whole]
  exact Json.Value.wholeItems_map Block.whole_toValue c.blocks

/-- the blocks of a chain are read from its text -/
theorem readBlocks_toText (c : Chain) :
    Json.readFrom readBlocks (utf8 c.toText) = .ok c.blocks := by
  rw [toText, Json.readFrom_renderIndented _ c.whole_toValue, toValue, Json.Value.docBy,
    Json.Value.itemDocsBy_eq_map, List.map_map]
  apply Json.readList_array
  intro b _
  exact Block.read_docBy Json.faithful_written .text b

/-- a chain's own text makes the same chain -/
theorem ofContent_toText {c : Chain} (hc : Built c) (path : Path) :
    ofContent path (utf8 c.toText) = .ok c := by
  rw [ofContent, readBlocks_toText]
  simp only [hc.ofBlocks?_blocks]

end Chain

/-! ## the file -/

namespace Chain

/-- saving leaves what was written at the path -/
theorem read_of_saveSteps {path : Path} {pieces : List Bytes} {steps : List Disk.Step}
    {d d' : Disk} (hsteps : saveSteps path pieces = .ok steps)
    (h : d.run steps = (d', .ok ())) : d'.read path = .ok pieces.flatten := by
  unfold saveSteps at hsteps
  cases hdraft : path.draft? with
  | none => rw [hdraft] at hsteps; cases hsteps
  | some draft =>
    rw [hdraft] at hsteps
    rw [← Except.ok.inj hsteps, Disk.run_append_eq_ok] at h
    obtain ⟨m, hm, h⟩ := h
    obtain ⟨k, -, hk⟩ := Disk.run_append_eq_ok.mp hm
    obtain ⟨e, he, hpieces⟩ := Disk.run_cons_eq_ok.mp hk
    have hread : m.read draft = .ok pieces.flatten :=
      Disk.read_of_appends hpieces (Disk.read_create (Disk.orUnchanged_eq_ok he))
    -- the draft is complete, and takes the place of the file
    obtain ⟨m', hsync, hlast⟩ := Disk.run_cons_eq_ok.mp h
    obtain ⟨d'', hrename, hend⟩ := Disk.run_cons_eq_ok.mp hlast
    cases hsync
    cases hend
    exact Disk.read_rename (Disk.orUnchanged_eq_ok hrename) hread

theorem read_of_save {c : Chain} {path : Path} {d d' : Disk} (h : c.save path d = (d', .ok ())) :
    d'.read path = .ok (utf8 c.toText) := by
  unfold save at h
  split at h
  · cases h
  · rename_i steps hsteps
    split at h
    · rename_i m hm
      cases h
      have hread := read_of_saveSteps hsteps hm
      rw [List.flatten_singleton] at hread
      exact hread
    · cases h

/-- **A chain is loaded as it was saved**: its own text makes the same chain, with the same blocks
and the same indices, and that text is what saving leaves in the file. -/
theorem load_of_save {c : Chain} (hc : Built c) :
    (∀ path, ofContent path (utf8 c.toText) = .ok c) ∧
      ∀ path d d', c.save path d = (d', .ok ()) → load path d' = .ok c := by
  refine ⟨ofContent_toText hc, ?_⟩
  intro path d d' h
  rw [load, read_of_save h]
  exact ofContent_toText hc path

/-- a block of the half of a leap second, and one of the first instant of all -/
def oldAndNew : Chain :=
  (initial.append ⟨0xffffffffffffffff, ⟨1483228799, 1500000000, by decide, by decide, by decide,
    by decide⟩, .zero, none, .zero, 0xffffffffffffffff⟩).append
    ⟨0, ⟨-8334601228800, 1, by decide, by decide, by decide, by decide⟩, .zero, some .zero, .zero, 0⟩

theorem load_of_save_oldAndNew :
    oldAndNew.Built ∧ (oldAndNew.save ⟨"ledger/chain.json"⟩ ⟨[], {}⟩).2 = .ok () ∧
      load ⟨"ledger/chain.json"⟩ (oldAndNew.save ⟨"ledger/chain.json"⟩ ⟨[], {}⟩).1
        = .ok oldAndNew := by
  have hbuilt : oldAndNew.Built := (Built.initial.append _).append _
  have hsave : (oldAndNew.save ⟨"ledger/chain.json"⟩ ⟨[], {}⟩).2 = .ok () := by
    have hok : (oldAndNew.save ⟨"ledger/chain.json"⟩ ⟨[], {}⟩).2.isOk = true := by decide +kernel
    cases h : (oldAndNew.save ⟨"ledger/chain.json"⟩ ⟨[], {}⟩).2 with
    | ok => rfl
    | error f => rw [h] at hok; cases hok
  exact ⟨hbuilt, hsave, (load_of_save hbuilt).2 _ _ _ (Prod.ext rfl hsave)⟩

end Chain

end ChunkLedger
