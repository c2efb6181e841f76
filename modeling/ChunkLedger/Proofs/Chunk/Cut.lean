import ChunkLedger.Chunk.File
import ChunkLedger.Proofs.Disk.Reading
import Mathlib.Algebra.Order.Floor.Div

/-!
# Cutting and joining

Chunks are cut at the multiples of a size if all but the last have that size, and the last is not
empty and no longer (`Cut`).  Reading a byte string piece by piece gives chunks that are cut so
(`cut_readPieces`) and that join to it (`join_readPieces`); and of the ways to take a byte string
apart this is the only one, for the first chunk can only be its first bytes
(`readPieces_join_of_cut`).  So chunks survive being joined and cut again exactly if they are cut
(`readPieces_join_iff`), and cutting in memory gives the same chunks (`pieces_eq_readPieces`).

On a disk, a file that can be created can be built from any chunks, and then holds what they join to
(`exists_run_buildSteps`).
-/

namespace ChunkLedger

/-- where there is a file, a new one can be created -/
theorem Disk.exists_create_of_read {d : Disk} {p : Path} {c : Bytes} (h : d.read p = .ok c) :
    ∃ m, d.create p = .ok m := by
  obtain ⟨k, hk⟩ := look_of_read h
  obtain ⟨l, n, hplace, -, hfile, hslash⟩ := look_eq_file_iff.mp hk
  refine ⟨d.put (l ++ [n]) (.file []), ?_⟩
  rw [create]
  refine bind_eq_ok.mpr ⟨_, hplace, ?_⟩
  simp only [hslash, hfile]
  rfl

namespace Chunk

/-- all chunks but the last have the size, and the last is not empty and no longer -/
def Cut (size : Nat) (cs : List Bytes) : Prop :=
  (∀ c ∈ cs.dropLast, c.length = size) ∧ ∀ c ∈ cs.getLast?, 1 ≤ c.length ∧ c.length ≤ size

instance (size : Nat) (cs : List Bytes) : Decidable (Cut size cs) :=
  inferInstanceAs (Decidable (_ ∧ _))

theorem cut_nil (size : Nat) : Cut size [] := ⟨by simp, by simp⟩

theorem cut_singleton_iff {size : Nat} {c : Bytes} :
    Cut size [c] ↔ 1 ≤ c.length ∧ c.length ≤ size := by
  simp [Cut]

theorem cut_cons_cons_iff {size : Nat} {c d : Bytes} {cs : List Bytes} :
    Cut size (c :: d :: cs) ↔ c.length = size ∧ Cut size (d :: cs) := by
  simp [Cut, and_assoc]

theorem ne_nil_of_cut {size : Nat} (hs : 0 < size) {cs : List Bytes} (h : Cut size cs) {c : Bytes}
    (hc : c ∈ cs) : c ≠ [] := by
  induction cs with
  | nil => cases hc
  | cons b cs ih =>
    cases cs with
    | nil =>
      obtain rfl : c = b := List.mem_singleton.mp hc
      exact List.ne_nil_of_length_pos (cut_singleton_iff.mp h).1
    | cons b' cs =>
      obtain ⟨hb, hcs⟩ := cut_cons_cons_iff.mp h
      rcases List.mem_cons.mp hc with rfl | hc
      · exact List.ne_nil_of_length_pos (hb ▸ hs)
      · exact ih hcs hc

/-- an empty file has no chunks, and it alone -/
theorem readPieces_eq_nil_iff {size : Nat} (h : size ≠ 0) {content : Bytes} :
    readPieces size content = [] ↔ content = [] := by
  constructor
  · intro hnil
    by_contra hne
    rw [readPieces_of_ne_nil h hne] at hnil
    cases hnil
  · rintro rfl
    exact readPieces_nil size

/-- a number of bytes takes one piece more than what is left after the first piece -/
theorem ceilDiv_of_pos {size n : Nat} (hs : 0 < size) (hn : 1 ≤ n) :
    n ⌈/⌉ size = (n - size) ⌈/⌉ size + 1 := by
  rw [Nat.ceilDiv_eq_add_pred_div, Nat.ceilDiv_eq_add_pred_div,
    Nat.div_eq_sub_div hs (by omega : size ≤ n + size - 1)]
  rcases Nat.le_or_le size n with hle | hle
  · rw [show n + size - 1 - size = n - size + size - 1 by omega]
  · rw [Nat.div_eq_of_lt (by omega : n + size - 1 - size < size),
      Nat.div_eq_of_lt (by omega : n - size + size - 1 < size)]

section
variable {size : Nat} (hs : 0 < size)
include hs

/-! ## in memory -/

theorem join_readPieces (bs : Bytes) : join (readPieces size bs) = bs := by
  fun_induction readPieces size bs with
  | case1 rest piece h =>
    rw [(List.take_eq_nil_iff.mp h).resolve_left hs.ne', join_nil]
  | case2 rest piece h ih =>
    rw [join_cons, ih, List.take_append_drop]

/-- a byte string that is no longer than the size is one piece -/
theorem readPieces_of_length_le {bs : Bytes} (hne : bs ≠ []) (h : bs.length ≤ size) :
    readPieces size bs = [bs] := by
  rw [readPieces_of_ne_nil hs.ne' hne, List.take_of_length_le h, List.drop_eq_nil_of_le h,
    readPieces_nil]

/-- reading gives all bytes of the size until fewer are left, and stops before an empty piece -/
theorem cut_readPieces (bs : Bytes) : Cut size (readPieces size bs) := by
  fun_induction readPieces size bs with
  | case1 rest piece h => exact cut_nil size
  | case2 rest piece h ih =>
    have hpos : 1 ≤ piece.length := List.length_pos_iff.mpr h
    by_cases hrest : rest.drop size = []
    · rw [hrest, readPieces_nil]
      exact cut_singleton_iff.mpr ⟨hpos, List.length_take_le size rest⟩
    · -- something is left after the piece, so the piece is full
      have hlong : size ≤ rest.length := by
        by_contra hshort
        exact hrest (List.drop_eq_nil_of_le (by omega))
      rw [readPieces_of_ne_nil hs.ne' hrest] at ih ⊢
      exact cut_cons_cons_iff.mpr ⟨List.length_take_of_le hlong, ih⟩

/-- chunks that are cut are found again in what they join to -/
theorem readPieces_join_of_cut {cs : List Bytes} (h : Cut size cs) :
    readPieces size (join cs) = cs := by
  induction cs with
  | nil => exact readPieces_nil size
  | cons c cs ih =>
    cases cs with
    | nil =>
      obtain ⟨hpos, hle⟩ := cut_singleton_iff.mp h
      rw [join_cons, join_nil, List.append_nil]
      exact readPieces_of_length_le hs (List.ne_nil_of_length_pos hpos) hle
    | cons c' cs =>
      obtain ⟨hc, hcs⟩ := cut_cons_cons_iff.mp h
      have hne : c ++ join (c' :: cs) ≠ [] :=
        List.append_ne_nil_of_left_ne_nil (ne_nil_of_cut hs h List.mem_cons_self) _
      rw [join_cons, readPieces_of_ne_nil hs.ne' hne, List.take_left' hc, List.drop_left' hc,
        ih hcs]

theorem readPieces_join_iff {cs : List Bytes} : readPieces size (join cs) = cs ↔ Cut size cs := by
  constructor
  · intro h
    rw [← h]
    exact cut_readPieces hs _
  · exact readPieces_join_of_cut hs

/-- cutting at the multiples of the size, as often as they fit, is reading to the end -/
theorem pieces_eq_readPieces (bs : Bytes) :
    pieces size (bs.length ⌈/⌉ size) bs = readPieces size bs := by
  fun_induction readPieces size bs with
  | case1 rest piece h =>
    rw [(List.take_eq_nil_iff.mp h).resolve_left hs.ne', List.length_nil, zero_ceilDiv, pieces]
  | case2 rest piece h ih =>
    have hpos : 1 ≤ rest.length := by
      refine List.length_pos_iff.mpr fun hnil => h ?_
      rw [show piece = rest.take size from rfl, hnil, List.take_nil]
    rw [ceilDiv_of_pos hs hpos, ← List.length_drop, pieces, ih]

theorem split_eq_readPieces (bs : Bytes) : split size bs = .ok (readPieces size bs) := by
  rw [split, if_neg hs.ne', ← pieces_eq_readPieces hs bs, Nat.ceilDiv_eq_add_pred_div,
    Nat.add_sub_assoc hs]

theorem length_readPieces (bs : Bytes) :
    (readPieces size bs).length = bs.length ⌈/⌉ size := by
  rw [← pieces_eq_readPieces hs, length_pieces]

/-! ## on a disk -/

theorem load_of_read {p : Path} {d : Disk} {bs : Bytes} (h : d.read p = .ok bs) :
    load size p d = .ok (readPieces size bs) := by
  rw [load, h, ofFile_ok hs.ne']

end

/-- the chunks of a file are the pieces of its content -/
theorem pieces_of_load {size : Nat} {file : Path} {d : Disk} {chunks : List Bytes}
    (h : load size file d = .ok chunks) :
    ∃ content, d.read file = .ok content ∧ chunks = readPieces size content := by
  unfold load ofFile at h
  split at h
  · cases h
  · split at h
    · rename_i content hread
      exact ⟨content, hread, (Except.ok.inj h).symm⟩
    · cases h

/-- a file that can be created can be built from any chunks -/
theorem exists_run_buildSteps {d m : Disk} {p : Path} (h : d.create p = .ok m) (cs : List Bytes) :
    ∃ d', d.run (buildSteps p cs) = (d', .ok ()) ∧ d'.read p = .ok (join cs) := by
  obtain ⟨d', hrun, hread⟩ := Disk.exists_run_appends (Disk.read_create h) cs
  refine ⟨d', Disk.run_cons_eq_ok.mpr ⟨m, ?_, hrun⟩, hread⟩
  rw [Disk.step, h]
  rfl

theorem run_buildSteps_of_create {d : Disk} {p : Path} {f : Disk.Fault}
    (h : d.create p = .error f) (cs : List Bytes) : d.run (buildSteps p cs) = (d, .error f) := by
  rw [buildSteps, Disk.run_cons, Disk.step, h]
  rfl

/-! ## both ways -/

/-- **Cutting and joining undo each other.**  A byte string, in memory or in a file, is cut into as
many chunks as there are sizes in its length, rounded up; none is empty, all but the last have the
size, and the last has at most that.  Built from them, a file holds exactly those bytes, whatever
was there before, if it can be created, which it can where a file is; and if not, nothing is
changed.  The other way round, a file built from any chunks at all is cut into the same ones if and
only if all but the last have the size, and the last has between one byte and that.  The size zero
is refused, in memory and before a file is looked at. -/
theorem cut_and_joined :
    (∀ size, 0 < size →
      (∀ bs, ∃ cs, split size bs = .ok cs ∧
        (∀ (d : Disk) p, d.read p = .ok bs → load size p d = .ok cs) ∧
        cs.length = bs.length ⌈/⌉ size ∧ (∀ c ∈ cs, c ≠ []) ∧ Cut size cs ∧
        ∀ (d : Disk) p m, d.create p = .ok m →
          ∃ d', d.run (buildSteps p cs) = (d', .ok ()) ∧ d'.read p = .ok bs) ∧
      ∀ cs (d : Disk) p m, d.create p = .ok m →
        ∃ d', d.run (buildSteps p cs) = (d', .ok ()) ∧ (load size p d' = .ok cs ↔ Cut size cs)) ∧
    (∀ (d : Disk) p bs, d.read p = .ok bs → ∃ m, d.create p = .ok m) ∧
    (∀ (d : Disk) p f cs, d.create p = .error f → d.run (buildSteps p cs) = (d, .error f)) ∧
    (∀ bs, split 0 bs = .error .zeroSize) ∧ ∀ p d, load 0 p d = .error (.size .zeroSize) := by
  refine ⟨?_, ?_, ?_, split_zero, fun p d => ofFile_zero (d.read p)⟩
  · intro size hs
    constructor
    · intro bs
      refine ⟨readPieces size bs, split_eq_readPieces hs bs, fun d p => load_of_read hs,
        length_readPieces hs bs, fun c => ne_nil_of_cut hs (cut_readPieces hs bs),
        cut_readPieces hs bs, ?_⟩
      intro d p m hm
      obtain ⟨d', hrun, hread⟩ := exists_run_buildSteps hm (readPieces size bs)
      rw [join_readPieces hs] at hread
      exact ⟨d', hrun, hread⟩
    · intro cs d p m hm
      obtain ⟨d', hrun, hread⟩ := exists_run_buildSteps hm cs
      refine ⟨d', hrun, ?_⟩
      rw [load_of_read hs hread, Except.ok.injEq]
      exact readPieces_join_iff hs
  · exact fun d p bs => Disk.exists_create_of_read
  · exact fun d p f cs h => run_buildSteps_of_create h cs

def tenBytes : Bytes := [0, 1, 2, 3, 4, 5, 6, 7, 8, 9]

/-- a disk where the path at which to build is taken -/
def takenDisk (content : Bytes) : Disk := (⟨[], {}⟩ : Disk).put ["out"] (.file content)

theorem read_takenDisk (content : Bytes) : (takenDisk content).read ⟨"/out"⟩ = .ok content := rfl

/-- chunks of four bytes with an empty one between them, which is lost when they are joined -/
def withEmpty : List Bytes := [[0, 1, 2, 3], [], [8, 9]]

theorem cut_and_joined_ten :
    ∃ cs, split 4 tenBytes = .ok cs ∧ cs.length = 3 ∧ cs ≠ withEmpty ∧
      (∃ d', (takenDisk tenBytes).run (buildSteps ⟨"/out"⟩ cs) = (d', .ok ()) ∧
        d'.read ⟨"/out"⟩ = .ok tenBytes) ∧
      ∃ d', (takenDisk tenBytes).run (buildSteps ⟨"/out"⟩ withEmpty) = (d', .ok ()) ∧
        load 4 ⟨"/out"⟩ d' ≠ .ok withEmpty := by
  obtain ⟨hsize, hcreate, -⟩ := cut_and_joined
  obtain ⟨m, hm⟩ := hcreate _ _ _ (read_takenDisk tenBytes)
  obtain ⟨hcut, hbuilt⟩ := hsize 4 (by decide)
  obtain ⟨cs, hcs, -, hlength, hne, -, hbuild⟩ := hcut tenBytes
  obtain ⟨d', hrun, hload⟩ := hbuilt withEmpty _ _ m hm
  refine ⟨cs, hcs, hlength, ?_, hbuild _ _ m hm, d', hrun, ?_⟩
  · rintro rfl
    exact hne [] (by decide) rfl
  · exact mt hload.mp (by decide)

end Chunk

end ChunkLedger
