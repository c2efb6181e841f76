import ChunkLedger.Proofs.Wire.Registry
import Mathlib.Data.List.Sort
import Mathlib.Data.Prod.Lex
import Mathlib.Data.String.Basic
import Std.Data.HashMap

/-!
# Snapshots

A snapshot lists peers by the time of their connection, and those of one time by their identifiers
(`Peer.key`).  No two peers of a registry have the same identifier, so the order leaves no choice:
however the same peers came to be in a registry, and in whatever order they are taken out of it
before they are sorted, the snapshot is the same (`snapshot_canonical`).  This covers registries
kept in a hash table (`callTable`), which hands out its entries in an order of its own.
-/

namespace ChunkLedger.Wire

/-! ## the order of peers -/

/-- what peers are listed by: the time of the connection, then the identifier -/
def Peer.key (p : Peer) : (ℤ ×ₗ ℕ) ×ₗ String :=
  toLex (toLex (p.connectedAt.seconds, p.connectedAt.nanos), p.id)

theorem Peer.le_iff {p q : Peer} : p.le q = true ↔ p.key ≤ q.key := by
  unfold Peer.le Peer.key
  rw [Prod.Lex.toLex_le_toLex, Prod.Lex.toLex_lt_toLex, EmbeddingLike.apply_eq_iff_eq,
    Prod.mk.injEq]
  split
  · rename_i h
    have hids : (!decide (q.id < p.id)) = true ↔ p.id ≤ q.id := by
      rw [Bool.not_eq_true', decide_eq_false_iff_not, not_lt]
    simp only [h, lt_irrefl, and_self, false_or, true_and, hids]
  · rename_i h
    have hne : ¬ (p.connectedAt.seconds = q.connectedAt.seconds ∧
        p.connectedAt.nanos = q.connectedAt.nanos) := fun e => h (Instant.ext e.1 e.2)
    simp only [Instant.le, Bool.or_eq_true, Bool.and_eq_true, decide_eq_true_eq, hne, false_and,
      or_false]
    omega

/-- peers with different identifiers, in order -/
theorem pairwise_mergeSort_le {l : List Peer} (h : (l.map Peer.id).Nodup) :
    (l.mergeSort Peer.le).Pairwise fun p q => p.key < q.key := by
  have hle : (l.mergeSort Peer.le).Pairwise fun p q => p.le q = true := by
    apply List.pairwise_mergeSort
    · intro p q u
      simp only [Peer.le_iff]
      exact le_trans
    · intro p q
      simp only [Bool.or_eq_true, Peer.le_iff]
      exact le_total _ _
  have hids : (l.mergeSort Peer.le).Pairwise fun p q => p.id ≠ q.id :=
    List.pairwise_map.mp (((List.mergeSort_perm l Peer.le).map Peer.id).nodup_iff.mpr h)
  refine (hle.and hids).imp ?_
  rintro p q ⟨hpq, hne⟩
  refine lt_of_le_of_ne (Peer.le_iff.mp hpq) fun e => hne ?_
  exact congrArg (fun k => (ofLex k).2) e

/-- the order leaves no choice -/
theorem mergeSort_eq_of_perm {l l' : List Peer} (hp : l.Perm l') (h : (l'.map Peer.id).Nodup) :
    l.mergeSort Peer.le = l'.mergeSort Peer.le := by
  have hl : (l.map Peer.id).Nodup := (hp.map Peer.id).nodup_iff.mpr h
  have hperm : (l.mergeSort Peer.le).Perm (l'.mergeSort Peer.le) :=
    ((List.mergeSort_perm l _).trans hp).trans (List.mergeSort_perm l' _).symm
  exact hperm.eq_of_pairwise (fun p q _ _ hpq hqp => absurd hqp (lt_asymm hpq))
    (pairwise_mergeSort_le hl) (pairwise_mergeSort_le h)

namespace Registry

/-! ## what a registry holds -/

theorem Reached.nodup_peers {r : Registry} (h : r.Reached) : r.peers.Nodup := .of_map _ h.nodup

/-- registries with the same entries hold the same peers -/
theorem Reached.perm_of_find? {r r' : Registry} (h : r.Reached) (h' : r'.Reached)
    (hsame : ∀ id, r'.find? id = r.find? id) : r'.peers.Perm r.peers := by
  rw [List.perm_ext_iff_of_nodup h'.nodup_peers h.nodup_peers]
  intro p
  have e := hsame p.id
  constructor
  · intro hp
    rw [h'.find?_eq_some_iff.mpr ⟨hp, rfl⟩] at e
    exact (h.find?_eq_some_iff.mp e.symm).1
  · intro hp
    rw [h.find?_eq_some_iff.mpr ⟨hp, rfl⟩] at e
    exact (h'.find?_eq_some_iff.mp e).1

/-- a hash table that has the peers under their identifiers holds them in some order -/
theorem Reached.perm_of_table {r : Registry} (h : r.Reached) {t : Std.HashMap String Peer}
    (ht : ∀ id, t[id]? = r.find? id) : (t.toList.map Prod.snd).Perm r.peers := by
  have hmem (id : String) (p : Peer) : (id, p) ∈ t.toList ↔ r.find? id = some p := by
    rw [Std.HashMap.mem_toList_iff_getElem?_eq_some, ht]
  have hnodup : t.toList.Nodup := by
    have hkeys := t.nodup_keys
    rw [← Std.HashMap.map_fst_toList_eq_keys] at hkeys
    exact .of_map _ hkeys
  rw [List.perm_ext_iff_of_nodup (hnodup.map_on ?_) h.nodup_peers]
  · intro p
    simp only [List.mem_map, Prod.exists, hmem, exists_eq_right, h.find?_eq_some_iff,
      exists_and_left, exists_eq', and_true]
  · rintro ⟨i, p⟩ hp ⟨j, q⟩ hq (rfl : p = q)
    rw [← id_of_find? ((hmem i p).mp hp), ← id_of_find? ((hmem j p).mp hq)]

/-! ## hash tables -/

/-- a call to a hash table that has peers under their identifiers -/
def callTable (t : Std.HashMap String Peer) : Call → Std.HashMap String Peer × Answer
  | .add p => if t.contains p.id then (t, .added false) else (t.insert p.id p, .added true)
  | .remove id => (t.erase id, .removed t[id]?)

/-- the table answers as a registry with the same entries does, and both have the same entries
again -/
theorem callTable_eq {r : Registry} {t : Std.HashMap String Peer} (h : ∀ id, t[id]? = r.find? id)
    (c : Call) : (callTable t c).2 = (r.call c).2 ∧
      ∀ id, (callTable t c).1[id]? = (r.call c).1.find? id := by
  cases c with
  | add p =>
    have hcontains : t.contains p.id = r.contains p.id := by
      rw [← Std.HashMap.isSome_getElem?_eq_contains, h, contains]
    rw [callTable, call, hcontains]
    cases hk : r.contains p.id with
    | true =>
      rw [add_of_known hk]
      exact ⟨rfl, h⟩
    | false =>
      rw [add_of_new hk]
      refine ⟨rfl, fun id => ?_⟩
      show (t.insert p.id p)[id]? = _
      rw [Std.HashMap.getElem?_insert, find?_cons, h]
      simp only [beq_iff_eq]
  | remove i =>
    refine ⟨congrArg Answer.removed (h i), fun id => ?_⟩
    show (t.erase i)[id]? = (r.remove i).1.find? id
    rw [Std.HashMap.getElem?_erase, find?_remove, h]
    simp only [beq_iff_eq]

/-! ## every snapshot -/

/-- **Snapshots are canonical.**  A snapshot has every registered peer once and nothing else, and is
strictly increasing.  Sorting the peers from any other order, as from that of a hash table with the
same entries, gives the same list; so does any other registry with the same entries, whatever the
calls that led to it. -/
theorem snapshot_canonical {r : Registry} (hr : r.Reached) :
    (∀ p, r.snapshot.count p = if r.find? p.id = some p then 1 else 0) ∧
    (r.snapshot.Pairwise fun p q => p.key < q.key) ∧
    (∀ l : List Peer, l.Perm r.peers → l.mergeSort Peer.le = r.snapshot) ∧
    (∀ t : Std.HashMap String Peer, (∀ id, t[id]? = r.find? id) →
      (t.toList.map Prod.snd).mergeSort Peer.le = r.snapshot) ∧
    ∀ r' : Registry, r'.Reached → (∀ id, r'.find? id = r.find? id) → r'.snapshot = r.snapshot := by
  have hcanon (l : List Peer) (hl : l.Perm r.peers) : l.mergeSort Peer.le = r.snapshot :=
    mergeSort_eq_of_perm hl hr.nodup
  refine ⟨?_, pairwise_mergeSort_le hr.nodup, hcanon, fun t ht => hcanon _ (hr.perm_of_table ht),
    fun r' hr' hsame => hcanon _ (hr.perm_of_find? hr' hsame)⟩
  intro p
  have hcount : r.snapshot.count p = r.peers.count p :=
    (List.mergeSort_perm r.peers Peer.le).count_eq p
  rw [hcount, hr.nodup_peers.count]
  simp only [hr.find?_eq_some_iff, and_true]

/-- two peers that came at the same time -/
def west : Peer := ⟨"a", "10.0.0.1", .epoch⟩

def east : Peer := ⟨"b", "10.0.0.2", .epoch⟩

/-- the one with the greater identifier added first -/
def eastFirst : Registry := ((empty.call (.add east)).1.call (.add west)).1

/-- the one with the smaller identifier added first, and between them one that has left -/
def westFirst : Registry :=
  ((((empty.call (.add west)).1.call (.add ⟨"c", "10.0.0.3", .epoch⟩)).1.call
    (.add east)).1.call (.remove "c")).1

/-- both in a hash table -/
def tabled : Std.HashMap String Peer :=
  (callTable (callTable ∅ (.add east)).1 (.add west)).1

theorem snapshot_canonical_westFirst :
    westFirst.peers ≠ eastFirst.peers ∧ westFirst.snapshot = eastFirst.snapshot ∧
      westFirst.peers.mergeSort Peer.le = eastFirst.snapshot ∧
      (tabled.toList.map Prod.snd).mergeSort Peer.le = eastFirst.snapshot := by
  have heast : eastFirst = ⟨[west, east]⟩ := by decide +kernel
  have hwest : westFirst = ⟨[east, west]⟩ := by decide +kernel
  have hperm : westFirst.peers.Perm eastFirst.peers := by
    rw [heast, hwest]
    exact .swap west east []
  have hfind (id : String) :
      eastFirst.find? id
        = if "a" = id then some west else if "b" = id then some east else none := by
    rw [heast, find?_cons, find?_cons]
    rfl
  have htable (id : String) : tabled[id]? = eastFirst.find? id :=
    (callTable_eq (callTable_eq (fun _ => Std.HashMap.getElem?_empty) _).2 _).2 id
  have hsame (id : String) : westFirst.find? id = eastFirst.find? id := by
    rw [hfind, hwest, find?_cons, find?_cons]
    show (if "b" = id then some east else if "a" = id then some west else none) = _
    by_cases ha : "a" = id
    · subst ha; rfl
    · simp only [if_neg ha]
  have hr : eastFirst.Reached := .after _ (.after _ .empty)
  have hr' : westFirst.Reached := .after _ (.after _ (.after _ (.after _ .empty)))
  obtain ⟨-, -, hlist, htab, hreg⟩ := snapshot_canonical hr
  refine ⟨?_, hreg _ hr' hsame, hlist _ hperm, htab _ htable⟩
  rw [heast, hwest]
  decide

end Registry

end ChunkLedger.Wire
