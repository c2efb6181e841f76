import ChunkLedger.Proofs.Chain.Built
import ChunkLedger.Proofs.Hash.Hex
import Mathlib.Data.List.Induction

/-!
# Look-ups find the newest block

`positions key bs` tells where in `bs` the newest block with each key stands, when blocks are looked
up by `key`: it is what comes of inserting the positions one after the other, so that a later block
takes the place of an earlier one with the same key (`positions_concat`).  The position for a key is
never past the end (`lt_of_position?`), and the block there is the last one with that key
(`bind_position?`).  It makes no difference how keys are written, as bytes or as their hexadecimal
texts (`position?_map`).

The indices of a chain are the positions of its blocks, by digest and by Merkle root (`Indexed`);
this is so for a first block, and every appended block keeps it.
-/

namespace ChunkLedger.Chain

/-! ## positions by key -/

section
variable {κ : Type} [BEq κ] [LawfulBEq κ] [Hashable κ]

/-- where the newest of some blocks with each key stands -/
def positions (key : Block → κ) (bs : List Block) : Std.ExtHashMap κ Nat :=
  bs.zipIdx.foldl (fun index p => index.insert (key p.1) p.2) ∅

/-- where the newest of some blocks with the key `k` stands -/
def position? (key : Block → κ) (bs : List Block) (k : κ) : Option Nat := (positions key bs)[k]?

variable {key : Block → κ} {bs : List Block} {k : κ}

@[simp] theorem position?_nil : position? key [] k = none := by
  rw [position?, positions]
  exact Std.ExtHashMap.getElem?_empty

theorem positions_concat (b : Block) :
    positions key (bs ++ [b]) = (positions key bs).insert (key b) bs.length := by
  rw [positions, List.zipIdx_append, List.foldl_append]
  simp [positions]

/-- where to look after a block has been appended -/
theorem position?_concat (b : Block) :
    position? key (bs ++ [b]) k = if key b == k then some bs.length else position? key bs k := by
  rw [position?, positions_concat, Std.ExtHashMap.getElem?_insert, position?]

theorem lt_of_position? {i : Nat} (h : position? key bs k = some i) : i < bs.length := by
  induction bs using List.reverseRecOn with
  | nil => simp at h
  | append_singleton bs b ih =>
    rw [List.length_append, List.length_singleton]
    rw [position?_concat] at h
    split at h
    · cases h
      exact Nat.lt_succ_self _
    · exact Nat.lt_succ_of_lt (ih h)

/-- the block at the position for a key is the last one with that key -/
theorem bind_position? (key : Block → κ) (bs : List Block) (k : κ) :
    ((position? key bs k).bind fun i => bs[i]?) = bs.reverse.find? fun b => key b == k := by
  induction bs using List.reverseRecOn with
  | nil => simp
  | append_singleton bs b ih =>
    rw [position?_concat, List.reverse_concat, List.find?_cons]
    cases hk : key b == k with
    | true => simp
    | false =>
      rw [← ih]
      cases hi : position? key bs k with
      | none => simp
      | some i => simp [List.getElem?_append_left (lt_of_position? hi)]

/-- keys can be written in any way that tells them apart -/
theorem position?_map {κ' : Type} [BEq κ'] [LawfulBEq κ'] [Hashable κ'] {f : κ → κ'}
    (hf : ∀ {x y}, f x = f y → x = y) :
    position? (fun b => f (key b)) bs (f k) = position? key bs k := by
  induction bs using List.reverseRecOn with
  | nil => simp
  | append_singleton bs b ih =>
    have hk : (f (key b) == f k) = (key b == k) := by
      rw [Bool.eq_iff_iff, beq_iff_eq, beq_iff_eq]
      exact ⟨hf, congrArg f⟩
    rw [position?_concat, position?_concat, ih, hk]

end

/-! ## the indices of a chain -/

/-- the indices are the positions of the blocks -/
structure Indexed (c : Chain) : Prop where
  byHash : c.byHash = positions (fun b => b.hash.bytes) c.blocks
  byRoot : c.byRoot = positions (fun b => b.merkleRoot.bytes) c.blocks

namespace Indexed

theorem single (b : Block) : (single b).Indexed where
  byHash := rfl
  byRoot := rfl

theorem append {c : Chain} (h : c.Indexed) (b : Block) : (c.append b).Indexed where
  byHash := by
    rw [blocks_append, positions_concat, ← h.byHash]
    rfl
  byRoot := by
    rw [blocks_append, positions_concat, ← h.byRoot]
    rfl

theorem foldl {c : Chain} (h : c.Indexed) (bs : List Block) : (bs.foldl Chain.append c).Indexed := by
  induction bs generalizing c with
  | nil => exact h
  | cons b bs ih => exact ih (h.append b)

theorem getElem?_byHash {c : Chain} (h : c.Indexed) (key : Bytes) :
    c.byHash[key]? = position? (fun b => b.hash.bytes) c.blocks key := by
  rw [position?, h.byHash]

theorem getElem?_byRoot {c : Chain} (h : c.Indexed) (key : Bytes) :
    c.byRoot[key]? = position? (fun b => b.merkleRoot.bytes) c.blocks key := by
  rw [position?, h.byRoot]

end Indexed

theorem Built.indexed {c : Chain} (h : Built c) : c.Indexed := by
  have hc := h.ofBlocks?_blocks
  rw [blocks, ofBlocks?] at hc
  rw [← Option.some.inj hc]
  exact (Indexed.single c.genesis).foldl c.later

/-- `b` is the last block with the Merkle root `root` -/
def Newest (c : Chain) (root : Digest) (b : Block) : Prop :=
  ∃ before after, c.blocks = before ++ b :: after ∧ b.merkleRoot = root ∧
    ∀ a ∈ after, a.merkleRoot ≠ root

/-- if the tip has the root, it is the last that has -/
theorem Newest.eq_tip {c : Chain} {root : Digest} {b : Block} (h : c.Newest root b)
    (htip : c.tip.merkleRoot = root) : b = c.tip := by
  obtain ⟨before, after, hblocks, -, hafter⟩ := h
  have hlast := c.getLast?_blocks
  rw [hblocks] at hlast
  cases after with
  | nil =>
    rw [List.getLast?_concat] at hlast
    exact Option.some.inj hlast
  | cons a rest =>
    rw [List.getLast?_append, List.getLast?_cons_cons] at hlast
    obtain ⟨last, hsome⟩ : ∃ last, (a :: rest).getLast? = some last := ⟨_, List.getLast?_cons⟩
    rw [hsome] at hlast
    cases hlast
    exact absurd htip (hafter _ (List.mem_of_getLast? hsome))

/-- looking up a root is looking for it from the tip on -/
theorem findRoot?_bytes {c : Chain} (hc : Built c) (root : Digest) :
    c.findRoot? root.bytes = c.blocks.reverse.find? fun b => b.merkleRoot == root := by
  have hkey : (fun b : Block => b.merkleRoot.bytes == root.bytes)
      = fun b => b.merkleRoot == root := by
    funext b
    rw [Bool.eq_iff_iff, beq_iff_eq, beq_iff_eq, Digest.ext_iff]
  rw [← hkey, ← bind_position? fun b => b.merkleRoot.bytes, ← hc.indexed.getElem?_byRoot]
  rfl

theorem newest_of_findRoot? {c : Chain} (hc : Built c) {root : Digest} {b : Block}
    (h : c.findRoot? root.bytes = some b) : c.Newest root b := by
  rw [findRoot?_bytes hc] at h
  obtain ⟨hb, after, before, hsplit, hafter⟩ := List.find?_eq_some_iff_append.mp h
  refine ⟨before.reverse, after.reverse, ?_, beq_iff_eq.mp hb, ?_⟩
  · rw [← List.reverse_reverse c.blocks, hsplit]
    simp
  · intro a ha
    simpa using hafter a (List.mem_reverse.mp ha)

theorem findRoot?_eq_none_iff {c : Chain} (hc : Built c) {root : Digest} :
    c.findRoot? root.bytes = none ↔ ∀ b ∈ c.blocks, b.merkleRoot ≠ root := by
  rw [findRoot?_bytes hc, List.find?_eq_none]
  simp

/-- **Look-ups never drift from the blocks.**  In every chain that can come about a key of any
length finds the last block with that digest or Merkle root, and none if there is none; no index
leads past the end; the first block and the tip are where they should be; the chain made anew from
the blocks is the same chain; and indices by the hexadecimal texts of the keys would say the same. -/
theorem find_newest {c : Chain} (hc : Built c) :
    (∀ key, c.findHash? key = c.blocks.reverse.find? fun b => b.hash.bytes == key) ∧
    (∀ key, c.findRoot? key = c.blocks.reverse.find? fun b => b.merkleRoot.bytes == key) ∧
    (∀ (key : Bytes) (i : Nat), c.byHash[key]? = some i ∨ c.byRoot[key]? = some i → i < c.length) ∧
    c.blocks[0]? = some c.genesis ∧ c.blocks[c.length - 1]? = some c.tip ∧
    ofBlocks? c.blocks = some c ∧
    ∀ key : Bytes, position? (fun b => b.hash.toHex) c.blocks (Hex.encode key) = c.byHash[key]? ∧
      position? (fun b => b.merkleRoot.toHex) c.blocks (Hex.encode key) = c.byRoot[key]? := by
  have hi := hc.indexed
  refine ⟨?_, ?_, ?_, rfl, c.getElem?_tip, hc.ofBlocks?_blocks, ?_⟩
  · intro key
    rw [← bind_position?, ← hi.getElem?_byHash]
    rfl
  · intro key
    rw [← bind_position?, ← hi.getElem?_byRoot]
    rfl
  · rintro key i (h | h)
    · exact lt_of_position? ((hi.getElem?_byHash key).symm.trans h)
    · exact lt_of_position? ((hi.getElem?_byRoot key).symm.trans h)
  · intro key
    rw [hi.getElem?_byHash, hi.getElem?_byRoot]
    exact ⟨position?_map Hex.encode_inj, position?_map Hex.encode_inj⟩

/-- three blocks, the last with the digest of the first and the second with its Merkle root -/
def repeated : Chain :=
  (initial.append { Block.genesis with nonce := 7 }).append { Block.genesis with merkleRoot := .zero }

theorem find_newest_repeated :
    repeated.Built ∧
      repeated.findHash? Block.genesis.hash.bytes = some repeated.tip ∧
      repeated.findRoot? Block.genesis.merkleRoot.bytes = some { Block.genesis with nonce := 7 } ∧
      repeated.findHash? [1, 2, 3] = none := by
  have hbuilt : repeated.Built := (Built.initial.append _).append _
  obtain ⟨hhash, hroot, -⟩ := find_newest hbuilt
  rw [hhash, hroot, hhash]
  exact ⟨hbuilt, by decide +kernel, by decide +kernel, by decide +kernel⟩

end ChunkLedger.Chain
