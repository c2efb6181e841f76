import ChunkLedger.Chain.Check
import ChunkLedger.Chain.File

/-!
# The chains that can come about

`Built c` says that the chain `c` is the outcome of some sequence of operations: it was started from
a checked first block or from the usual one, made of a list of blocks, or loaded from a file, and
has then grown by blocks that were checked or just appended.

A chain's indices are then nothing of its own: they are those that its blocks give rise to
(`Built.ofBlocks?_blocks`), and chains with the same blocks are the same (`Built.ext`).
-/

namespace ChunkLedger.Chain

inductive Built : Chain → Prop
  | start {g : Block} {c : Chain} : start g = .ok c → Built c
  | initial : Built initial
  | ofBlocks {bs : List Block} {c : Chain} : ofBlocks? bs = some c → Built c
  | load {path : Path} {d : Disk} {c : Chain} : load path d = .ok c → Built c
  | add {c c' : Chain} {b : Block} {d : Nat} : Built c → c.add b d = .ok c' → Built c'
  | append {c : Chain} (b : Block) : Built c → Built (c.append b)

theorem start_eq_ok {g : Block} {c : Chain} (h : start g = .ok c) : c = single g := by
  unfold start at h
  split at h
  · cases h; rfl
  · cases h

theorem add_eq_ok {c c' : Chain} {b : Block} {d : Nat} (h : c.add b d = .ok c') :
    b.validate c.tip d = .ok () ∧ c' = c.append b := by
  unfold add at h
  split at h
  · rename_i hv
    cases h
    exact ⟨hv, rfl⟩
  · cases h

theorem blocks_foldl_append (c : Chain) (bs : List Block) :
    (bs.foldl append c).blocks = c.blocks ++ bs := by
  induction bs generalizing c with
  | nil => simp
  | cons b bs ih => rw [List.foldl_cons, ih, blocks_append, List.append_assoc, List.singleton_append]

/-- the chain of some blocks has these blocks -/
theorem blocks_of_ofBlocks? {bs : List Block} {c : Chain} (h : ofBlocks? bs = some c) :
    c.blocks = bs := by
  cases bs with
  | nil => cases h
  | cons b bs =>
    cases h
    rw [blocks_foldl_append, blocks_single, List.singleton_append]

theorem ofBlocks?_of_ofContent {path : Path} {content : Bytes} {c : Chain}
    (h : ofContent path content = .ok c) : ofBlocks? c.blocks = some c := by
  unfold ofContent at h
  split at h
  · cases h
  · split at h
    · rename_i hc
      cases h
      rw [blocks_of_ofBlocks? hc, hc]
    · cases h

theorem ofBlocks?_of_load {path : Path} {d : Disk} {c : Chain} (h : load path d = .ok c) :
    ofBlocks? c.blocks = some c := by
  unfold load ofFile at h
  split at h
  · exact ofBlocks?_of_ofContent h
  · cases h

namespace Built

/-- a chain's indices are those of its blocks -/
theorem ofBlocks?_blocks {c : Chain} (h : Built c) : ofBlocks? c.blocks = some c := by
  induction h with
  | start h => rw [start_eq_ok h, blocks_single, ofBlocks?_singleton]
  | initial => rfl
  | ofBlocks h => rw [blocks_of_ofBlocks? h, h]
  | load h => exact ofBlocks?_of_load h
  | add _ h ih => rw [(add_eq_ok h).2, blocks_append, ofBlocks?_concat ih]
  | append b _ ih => rw [blocks_append, ofBlocks?_concat ih]

/-- chains with the same blocks are the same -/
theorem ext {a b : Chain} (ha : Built a) (hb : Built b) (h : a.blocks = b.blocks) : a = b := by
  have e := ha.ofBlocks?_blocks
  rw [h, hb.ofBlocks?_blocks] at e
  exact (Option.some.inj e).symm

end Built

end ChunkLedger.Chain
