import ChunkLedger.Merkle.Proof

/-!
# The nodes of a tree

A node is given by its level, counted from the leaves, and its place in the level.  The node `m` of
a level is the pair of two nodes of the level below, its children: number `2 * m` and the one after
it, or number `2 * m` twice if it is the last (`childIndex`, `pairUp_children`).

From the root one gets to a node by a list of turns.  Turns are listed as in a proof, the lowest
first, so that `Tree.reached` follows them from the last to the first.
-/

namespace ChunkLedger.Merkle

/-- a child of node `m`, in a level of `n` nodes below it; the odd last node is a right child too -/
def childIndex (n m : Nat) (right : Bool) : Nat := min (2 * m + right.toNat) (n - 1)

/-- what is hashed for the level above `ds` -/
def levelPreimages : List Digest → List Bytes
  | a :: b :: rest => (a.bytes ++ b.bytes) :: levelPreimages rest
  | [a] => [a.bytes ++ a.bytes]
  | [] => []

/-- a node of a level is the pair of its children -/
theorem pairUp_children {ds : List Digest} {m : Nat} {d : Digest}
    (h : (pairUp ds)[m]? = some d) :
    ∃ l r, ds[childIndex ds.length m false]? = some l ∧ ds[childIndex ds.length m true]? = some r ∧
      d = l.pair r ∧ l.bytes ++ r.bytes ∈ levelPreimages ds := by
  induction ds using pairUp.induct generalizing m with
  | case1 a b rest ih =>
    cases m with
    | zero =>
      cases h
      exact ⟨a, b, by simp [childIndex], by simp [childIndex], rfl, List.mem_cons_self⟩
    | succ m =>
      obtain ⟨l, r, hl, hr, hd, hmem⟩ := ih h
      have hlt : m < (pairUp rest).length :=
        (List.getElem?_eq_some_iff.mp (show (pairUp rest)[m]? = some d from h)).1
      rw [length_pairUp] at hlt
      have hc (right : Bool) : childIndex (a :: b :: rest).length (m + 1) right
          = childIndex rest.length m right + 2 := by
        simp only [childIndex, List.length_cons]
        omega
      refine ⟨l, r, ?_, ?_, hd, List.mem_cons_of_mem _ hmem⟩
      · rw [hc]; exact hl
      · rw [hc]; exact hr
  | case2 a =>
    cases m with
    | zero => cases h; exact ⟨a, a, rfl, rfl, rfl, List.mem_cons_self⟩
    | succ m => cases h
  | case3 => cases h

/-! ## levels -/

theorem levelsOf_succ (ds : List Digest) (l : Nat) (hl : l + 1 < (levelsOf ds).length) :
    (levelsOf ds)[l + 1]? = ((levelsOf ds)[l]?).map pairUp := by
  fun_induction levelsOf ds generalizing l with
  | case1 ds hlt ih =>
    cases l with
    | zero =>
      show (levelsOf (pairUp ds))[0]? = some (pairUp ds)
      rw [← List.head?_eq_getElem?, head_levelsOf]
    | succ l => exact ih l (by simpa using hl)
  | case2 ds hle => simp at hl

namespace Tree

/-- the nodes of level `l` -/
def level (t : Tree) (l : Nat) : List Digest := t.levels.getD l []

def node? (t : Tree) (l m : Nat) : Option Digest := (t.level l)[m]?

/-- where one gets from the root by some turns -/
def reached (t : Tree) : (turns : List Bool) → Nat
  | [] => 0
  | right :: above =>
    childIndex (t.level (t.depth - (above.length + 1))).length (t.reached above) right

/-- the other child of the node above the one where one gets -/
def sibling (t : Tree) : (turns : List Bool) → Nat
  | [] => 0
  | right :: above => t.reached ((!right) :: above)

theorem reached_cons (t : Tree) (right : Bool) (above : List Bool) :
    t.reached (right :: above)
      = childIndex (t.level (t.depth - (above.length + 1))).length (t.reached above) right := rfl

theorem sibling_cons (t : Tree) (right : Bool) (above : List Bool) :
    t.sibling (right :: above) = t.reached ((!right) :: above) := rfl

/-- the byte strings hashed when the tree of some chunks is built -/
def preimages (t : Tree) (chunks : List Bytes) : List Bytes :=
  chunks ++ t.levels.dropLast.flatMap levelPreimages

theorem length_levels (t : Tree) : t.levels.length = t.depth + 1 := by
  have h : 0 < t.levels.length := by
    rw [t.levels_eq]
    exact List.length_pos_iff.mpr (levelsOf_ne_nil _)
  unfold depth
  omega

theorem level_zero (t : Tree) : t.level 0 = t.leaves := by
  have h := head_levelsOf t.leaves
  rw [← t.levels_eq, List.head?_eq_getElem?] at h
  rw [level, List.getD_eq_getElem?_getD, h]
  rfl

theorem level_succ (t : Tree) {l : Nat} (hl : l < t.depth) :
    t.level (l + 1) = pairUp (t.level l) := by
  have hlt : l + 1 < t.levels.length := by rw [t.length_levels]; omega
  have h := levelsOf_succ t.leaves l (by rw [← t.levels_eq]; exact hlt)
  rw [← t.levels_eq, List.getElem?_eq_getElem (Nat.lt_of_succ_lt hlt), Option.map_some] at h
  rw [level, level, List.getD_eq_getElem?_getD, h, List.getD_eq_getElem?_getD,
    List.getElem?_eq_getElem (Nat.lt_of_succ_lt hlt)]
  rfl

theorem level_depth (t : Tree) : t.level t.depth = [t.root] := by
  have h := t.levels_getLast
  rw [List.getLast?_eq_getElem?, t.length_levels, Nat.add_sub_cancel] at h
  rw [level, List.getD_eq_getElem?_getD, h]
  rfl

/-- what is hashed for a level is hashed for the tree -/
theorem mem_preimages {t : Tree} (chunks : List Bytes) {l : Nat} (hl : l < t.depth) {x : Bytes}
    (hx : x ∈ levelPreimages (t.level l)) : x ∈ t.preimages chunks := by
  have hlt : l < t.levels.dropLast.length := by
    rw [List.length_dropLast, t.length_levels]
    omega
  refine List.mem_append_right _ (List.mem_flatMap.mpr ⟨t.level l, ?_, hx⟩)
  have e : t.level l = t.levels.dropLast[l] := by
    rw [level, List.getD_eq_getElem?_getD, List.getElem?_eq_getElem (by rw [t.length_levels]; omega),
      List.getElem_dropLast]
    rfl
  rw [e]
  exact List.getElem_mem hlt

/-- a node above the leaves is the pair of its children, and its preimage is hashed for the tree -/
theorem children {t : Tree} (chunks : List Bytes) {l m : Nat} {d : Digest} (hl : l < t.depth)
    (h : t.node? (l + 1) m = some d) :
    ∃ a b, t.node? l (childIndex (t.level l).length m false) = some a ∧
      t.node? l (childIndex (t.level l).length m true) = some b ∧
      d = a.pair b ∧ a.bytes ++ b.bytes ∈ t.preimages chunks := by
  unfold node? at h
  rw [t.level_succ hl] at h
  obtain ⟨a, b, ha, hb, hd, hmem⟩ := pairUp_children h
  exact ⟨a, b, ha, hb, hd, mem_preimages chunks hl hmem⟩

theorem leaves_of_ofChunks {chunks : List Bytes} {t : Tree} (h : ofChunks chunks = .ok t) :
    t.leaves = chunks.map sha256 :=
  ofLeaves_eq_ok_iff.mp h

theorem leafCount_of_ofChunks {chunks : List Bytes} {t : Tree} (h : ofChunks chunks = .ok t) :
    t.leafCount = chunks.length := by
  rw [leafCount, leaves_of_ofChunks h, List.length_map]

end Tree

end ChunkLedger.Merkle
