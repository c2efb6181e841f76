import ChunkLedger.Proofs.Merkle.Reached
import Mathlib.Algebra.Order.Floor.Div
import Mathlib.Data.Nat.Log
import Mathlib.GroupTheory.GroupAction.Ring

/-!
# The tree from the top down

Levels are built upwards, in pairs, and the odd last node of a level is paired with itself.  Seen
from the root every node above the leaves has two children (`Tree.digestAt_eq_pair`), which may be
one node.  So every list of turns leads somewhere, and the lists as long as the tree is deep lead to
a whole power of two of leaves, some of them more than once.

* `turnsTo`, `spread`     all lists of `n` turns from left to right, and a function along them;
* `rootByHalves`          the root over a list of digests, by halves of the list;
* `Tree.digestAt`         the digest where some turns lead;
* `Tree.expansion`        the leaves where all ways down lead.

The root of a tree is that of its expansion by halves (`Tree.rootByHalves_spread`), and the number
of nodes in each level is that of the leaves, halved and rounded up again and again
(`Tree.length_level`).
-/

namespace ChunkLedger.Merkle

/-! ## all ways down -/

/-- the bits of `j` as `n` turns, listed from the lowest, which is the last one taken -/
def turnsTo (n j : Nat) : List Bool := (List.range n).map j.testBit

/-- the values of `f` along all lists of `n` turns, from left to right -/
def spread {α : Type} (n : Nat) (f : List Bool → α) : List α :=
  (List.range (2 ^ n)).map fun j => f (turnsTo n j)

@[simp] theorem length_turnsTo (n j : Nat) : (turnsTo n j).length = n := by
  rw [turnsTo, List.length_map, List.length_range]

theorem getElem?_turnsTo {n j k : Nat} {right : Bool} (h : (turnsTo n j)[k]? = some right) :
    right = j.testBit k := by
  rw [turnsTo, List.getElem?_map] at h
  obtain ⟨i, hi, rfl⟩ := Option.map_eq_some_iff.mp h
  rw [List.getElem?_eq_some_iff] at hi
  obtain ⟨_, rfl⟩ := hi
  rw [List.getElem_range]

theorem turnsTo_succ (n j : Nat) : turnsTo (n + 1) j = turnsTo n j ++ [j.testBit n] := by
  rw [turnsTo, List.range_succ, List.map_append]
  rfl

theorem turnsTo_two_pow_add (n j : Nat) : turnsTo n (2 ^ n + j) = turnsTo n j := by
  apply List.map_congr_left
  intro k hk
  exact Nat.testBit_two_pow_add_gt (List.mem_range.mp hk) j

section
variable {α : Type}

@[simp] theorem length_spread (n : Nat) (f : List Bool → α) : (spread n f).length = 2 ^ n := by
  rw [spread, List.length_map, List.length_range]

theorem getElem?_spread {n j : Nat} (hj : j < 2 ^ n) (f : List Bool → α) :
    (spread n f)[j]? = some (f (turnsTo n j)) := by
  rw [spread, List.getElem?_map, List.getElem?_range hj]
  rfl

theorem spread_zero (f : List Bool → α) : spread 0 f = [f []] := rfl

/-- the first turn taken, listed last, leads into the left or the right half -/
theorem spread_succ (n : Nat) (f : List Bool → α) :
    spread (n + 1) f
      = spread n (fun turns => f (turns ++ [false])) ++
        spread n (fun turns => f (turns ++ [true])) := by
  rw [spread, Nat.pow_succ, Nat.mul_two, List.range_add, List.map_append, List.map_map]
  congr 1
  · apply List.map_congr_left
    intro j hj
    show f (turnsTo (n + 1) j) = f (turnsTo n j ++ [false])
    rw [turnsTo_succ, Nat.testBit_lt_two_pow (List.mem_range.mp hj)]
  · apply List.map_congr_left
    intro j hj
    show f (turnsTo (n + 1) (2 ^ n + j)) = f (turnsTo n j ++ [true])
    rw [turnsTo_succ, turnsTo_two_pow_add, Nat.testBit_two_pow_add_eq,
      Nat.testBit_lt_two_pow (List.mem_range.mp hj)]
    rfl

/-- along all lists of `n` turns there is nothing but lists of `n` turns, and all of them -/
theorem spread_eq_iff {n : Nat} {f g : List Bool → α} :
    spread n f = spread n g ↔ ∀ turns : List Bool, turns.length = n → f turns = g turns := by
  constructor
  · intro h turns hlen
    induction n generalizing f g turns with
    | zero =>
      obtain rfl := List.length_eq_zero_iff.mp hlen
      rw [spread_zero, spread_zero] at h
      exact List.singleton_inj.mp h
    | succ n ih =>
      rw [spread_succ, spread_succ] at h
      obtain ⟨hleft, hright⟩ := List.append_inj h (by rw [length_spread, length_spread])
      have hne : turns ≠ [] := List.ne_nil_of_length_eq_add_one hlen
      have hinit : turns.dropLast.length = n := by
        rw [List.length_dropLast]
        omega
      rw [← List.dropLast_append_getLast hne]
      cases turns.getLast hne with
      | false => exact ih hleft _ hinit
      | true => exact ih hright _ hinit
  · intro h
    apply List.map_congr_left
    intro j _
    exact h _ (length_turnsTo n j)

end

/-! ## the root by halves -/

/-- one digest is its own root; more of them have the pair of the roots of their halves -/
def rootByHalves (ds : List Digest) : Option Digest :=
  if ds.length ≤ 1 then ds.head?
  else do
    let left ← rootByHalves (ds.take (ds.length / 2))
    let right ← rootByHalves (ds.drop (ds.length / 2))
    return left.pair right
termination_by ds.length
decreasing_by
  · rw [List.length_take]
    omega
  · rw [List.length_drop]
    omega

theorem rootByHalves_singleton (d : Digest) : rootByHalves [d] = some d := by
  rw [rootByHalves, if_pos (show [d].length ≤ 1 from Nat.le_refl 1)]
  rfl

theorem rootByHalves_append {xs ys : List Digest} (hlen : xs.length = ys.length) {a b : Digest}
    (ha : rootByHalves xs = some a) (hb : rootByHalves ys = some b) :
    rootByHalves (xs ++ ys) = some (a.pair b) := by
  have hpos : xs.length ≠ 0 := by
    intro h
    rw [List.length_eq_zero_iff.mp h, rootByHalves] at ha
    cases ha
  have hhalf : (xs ++ ys).length / 2 = xs.length := by
    rw [List.length_append]
    omega
  have hmore : ¬ (xs ++ ys).length ≤ 1 := by
    rw [List.length_append]
    omega
  rw [rootByHalves, if_neg hmore, hhalf, List.take_left, List.drop_left, ha, hb]
  rfl

namespace Tree

/-! ## digests along the ways down -/

theorem reached_lt (t : Tree) (turns : List Bool) :
    t.reached turns < (t.level (t.depth - turns.length)).length := by
  have hleaf : 0 < t.leafCount := List.length_pos_iff.mpr t.leaves_ne_nil
  have hpos := lt_length_level hleaf (Nat.sub_le t.depth turns.length)
  rw [Nat.zero_div] at hpos
  cases turns with
  | nil => exact hpos
  | cons right above =>
    rw [List.length_cons] at hpos ⊢
    rw [reached_cons, childIndex]
    omega

/-- the digest where one gets from the root by some turns -/
def digestAt (t : Tree) (turns : List Bool) : Digest :=
  (t.level (t.depth - turns.length)).get ⟨t.reached turns, t.reached_lt turns⟩

theorem node?_reached (t : Tree) (turns : List Bool) :
    t.node? (t.depth - turns.length) (t.reached turns) = some (t.digestAt turns) :=
  List.getElem?_eq_getElem (t.reached_lt turns)

@[simp] theorem digestAt_nil (t : Tree) : t.digestAt [] = t.root := by
  have h := t.node?_reached []
  rw [node?, List.length_nil, Nat.sub_zero, t.level_depth] at h
  exact (Option.some.inj h).symm

/-- a digest above the leaves is the pair of those to its left and to its right, and this pair is
hashed for the tree -/
theorem digestAt_eq_pair {t : Tree} (chunks : List Bytes) {turns : List Bool}
    (h : turns.length < t.depth) :
    t.digestAt turns = (t.digestAt (false :: turns)).pair (t.digestAt (true :: turns)) ∧
      (t.digestAt (false :: turns)).bytes ++ (t.digestAt (true :: turns)).bytes
        ∈ t.preimages chunks := by
  have hup : t.depth - turns.length = t.depth - (turns.length + 1) + 1 := by omega
  have hnode := t.node?_reached turns
  have hleft := t.node?_reached (false :: turns)
  have hright := t.node?_reached (true :: turns)
  rw [hup] at hnode
  obtain ⟨a, b, ha, hb, hpair, hmem⟩ := children chunks (by omega) hnode
  obtain rfl : a = t.digestAt (false :: turns) := Option.some.inj (ha.symm.trans hleft)
  obtain rfl : b = t.digestAt (true :: turns) := Option.some.inj (hb.symm.trans hright)
  exact ⟨hpair, hmem⟩

/-- as many turns as the tree is deep lead to a leaf -/
theorem getElem?_leaves (t : Tree) {turns : List Bool} (h : turns.length = t.depth) :
    t.leaves[t.reached turns]? = some (t.digestAt turns) := by
  have hnode := t.node?_reached turns
  rwa [h, Nat.sub_self, node?, t.level_zero] at hnode

/-- the leaves where all ways down lead, from left to right -/
def expansion (t : Tree) : List Digest := spread t.depth t.digestAt

/-- below a node, whatever the number of turns -/
theorem rootByHalves_below (t : Tree) (n : Nat) (above : List Bool)
    (h : n + above.length ≤ t.depth) :
    rootByHalves (spread n fun turns => t.digestAt (turns ++ above)) = some (t.digestAt above) := by
  induction n generalizing above with
  | zero =>
    rw [spread_zero]
    exact rootByHalves_singleton _
  | succ n ih =>
    -- the left and the right half are what is below the two children
    have hbelow (right : Bool) : rootByHalves
        (spread n fun turns => t.digestAt (turns ++ [right] ++ above))
          = some (t.digestAt (right :: above)) := by
      have hstep := ih (right :: above) (by rw [List.length_cons]; omega)
      simpa only [List.append_assoc, List.singleton_append] using hstep
    rw [spread_succ, (digestAt_eq_pair [] (by omega)).1]
    exact rootByHalves_append (by rw [length_spread, length_spread]) (hbelow false) (hbelow true)

/-- **The root is that by halves** of the digests where `n` turns lead. -/
theorem rootByHalves_spread (t : Tree) {n : Nat} (h : n ≤ t.depth) :
    rootByHalves (spread n t.digestAt) = some t.root := by
  have hroot := t.rootByHalves_below n [] h
  rw [digestAt_nil] at hroot
  simpa only [List.append_nil] using hroot

/-! ## how many nodes there are -/

/-- a level has the leaves' number divided by a power of two, rounded up -/
theorem length_level (t : Tree) {k : Nat} (h : k ≤ t.depth) :
    (t.level k).length = t.leafCount ⌈/⌉ 2 ^ k := by
  rw [Nat.ceilDiv_eq_add_pred_div]
  induction k with
  | zero =>
    rw [t.level_zero, Nat.pow_zero, Nat.add_sub_cancel, Nat.div_one]
    rfl
  | succ k ih =>
    have hpow : 0 < 2 ^ k := Nat.two_pow_pos k
    have htwice : t.leafCount + 2 ^ k * 2 - 1 = t.leafCount + 2 ^ k - 1 + 2 ^ k := by omega
    rw [t.level_succ h, length_pairUp, ih (Nat.le_of_succ_le h), Nat.pow_succ, htwice,
      ← Nat.div_div_eq_div_mul, Nat.add_div_right _ hpow]

theorem length_levelsOf (ds : List Digest) :
    (levelsOf ds).length = Nat.clog 2 ds.length + 1 := by
  fun_induction levelsOf ds with
  | case1 ds hlt ih =>
    rw [List.length_cons, ih, length_pairUp, Nat.clog_of_two_le Nat.one_lt_two hlt]
    rfl
  | case2 ds hle => rw [Nat.clog_of_right_le_one (by omega)]; rfl

theorem depth_eq_clog (t : Tree) : t.depth = Nat.clog 2 t.leafCount := by
  rw [depth, t.levels_eq, length_levelsOf]
  rfl

/-- the sizes of all levels, and so the number of levels -/
theorem map_length_levels (t : Tree) :
    t.levels.map List.length
      = (List.range (t.depth + 1)).map fun k => t.leafCount ⌈/⌉ 2 ^ k := by
  apply List.ext_getElem
  · rw [List.length_map, List.length_map, List.length_range, t.length_levels]
  · intro k hk _
    rw [List.length_map] at hk
    have hlevel : t.level k = t.levels[k] := by
      rw [level, List.getD_eq_getElem?_getD, List.getElem?_eq_getElem hk]
      rfl
    rw [t.length_levels] at hk
    rw [List.getElem_map, List.getElem_map, List.getElem_range, ← hlevel,
      t.length_level (Nat.le_of_lt_succ hk)]

end Tree

/-- **The tree over some digests.**  Some digests always have a tree.  Its levels start with the
digests themselves, have their number divided by the powers of two, rounded up, and end with the
root alone, so its depth is the binary logarithm of the number, rounded up.  The ways down from the
root lead to a power of two of leaves, and over these the root is that by halves. -/
theorem shape_of_ofLeaves {ds : List Digest} (hne : ds ≠ []) :
    ∃ t, Tree.ofLeaves ds = .ok t ∧
      t.depth = Nat.clog 2 ds.length ∧
      t.levels.map List.length
        = (List.range (t.depth + 1)).map (fun k => ds.length ⌈/⌉ 2 ^ k) ∧
      t.levels.head? = some ds ∧ t.levels.getLast? = some [t.root] ∧
      t.expansion.length = 2 ^ t.depth ∧
      (∀ j, j < 2 ^ t.depth → t.expansion[j]? = ds[t.reached (turnsTo t.depth j)]?) ∧
      rootByHalves t.expansion = some t.root := by
  obtain ⟨t, ht⟩ : ∃ t, Tree.ofLeaves ds = .ok t := ⟨_, Tree.ofLeaves_of_ne_nil hne⟩
  obtain rfl : t.leaves = ds := Tree.ofLeaves_eq_ok_iff.mp ht
  refine ⟨t, ht, t.depth_eq_clog, t.map_length_levels, ?_, t.levels_getLast, length_spread _ _, ?_,
    t.rootByHalves_spread (Nat.le_refl _)⟩
  · rw [t.levels_eq]
    exact head_levelsOf _
  · intro j hj
    rw [t.getElem?_leaves (length_turnsTo _ _)]
    exact getElem?_spread hj _

/-- leaves of a tree with three odd levels -/
def elevenDigests : List Digest :=
  (List.range 11).map fun i => ⟨List.replicate digestLength (UInt8.ofNat i), List.length_replicate⟩

def elevenLeaves : Tree := ⟨elevenDigests, List.cons_ne_nil _ _, _, rfl⟩

/-- below the doubled node of the level of three stand leaves that are met twice -/
theorem shape_of_ofLeaves_eleven : elevenDigests ≠ [] ∧
    Tree.ofLeaves elevenDigests = .ok elevenLeaves ∧ elevenLeaves.depth = 4 ∧
    elevenLeaves.levels.map List.length = [11, 6, 3, 2, 1] ∧
    elevenLeaves.expansion[8]? = elevenDigests[8]? ∧
    elevenLeaves.expansion[12]? = elevenDigests[8]? ∧
    rootByHalves elevenLeaves.expansion = some elevenLeaves.root := by
  have hne : elevenDigests ≠ [] := List.cons_ne_nil _ _
  obtain ⟨t, ht, hdepth, hlevels, -, -, -, hleaf, hroot⟩ := shape_of_ofLeaves hne
  obtain rfl : elevenLeaves = t := Except.ok.inj ht
  have hlog : Nat.clog 2 elevenDigests.length = 4 := by decide +kernel
  rw [hlog] at hdepth
  rw [hdepth] at hlevels hleaf
  have hfirst : elevenLeaves.reached (turnsTo 4 8) = 8 := by decide +kernel
  have hagain : elevenLeaves.reached (turnsTo 4 12) = 8 := by decide +kernel
  refine ⟨hne, ht, hdepth, hlevels, ?_, ?_, hroot⟩
  · rw [hleaf 8 (by decide), hfirst]
  · rw [hleaf 12 (by decide), hagain]

end ChunkLedger.Merkle
