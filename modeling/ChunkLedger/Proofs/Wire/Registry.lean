import ChunkLedger.Wire.Peer
import Mathlib.Data.List.Nodup

/-!
# A registry and the calls made to it

A peer is added only if its identifier is free, and removing an identifier frees it.  So under one
identifier entries come and go by turns (`Turns`), and the entry that goes is the one that came
last.  Each call does one of these things to the entry of an identifier, or nothing
(`call_cases`); this is all that the theorems about histories need to know of a call.

* `Call`, `Answer`, `call`   the calls that may change a registry;
* `change? id`               what an answered call has done to the entry of `id`;
* `Reached`                  the registries that calls lead to: no identifier occurs twice in one
                             (`Reached.nodup`).
-/

namespace ChunkLedger.Wire.Registry

/-! ## calls -/

inductive Call where
  | add (p : Peer)
  | remove (id : String)
deriving DecidableEq

inductive Answer where
  /-- whether the peer is new -/
  | added (new : Bool)
  /-- the entry that was there, if any -/
  | removed (entry : Option Peer)
deriving DecidableEq

def call (r : Registry) : Call → Registry × Answer
  | .add p => ((r.add p).1, .added (r.add p).2)
  | .remove id => ((r.remove id).1, .removed (r.remove id).2)

def Answer.isAddition : Answer → Bool
  | .added new => new
  | .removed _ => false

def Answer.isRemoval : Answer → Bool
  | .added _ => false
  | .removed entry => entry.isSome

/-- what has become of an entry -/
inductive Change where
  | added (p : Peer)
  | removed (p : Peer)
deriving DecidableEq

/-- what an answered call has done to the entry of `id`: nothing if it was refused, or if it is
about another identifier -/
def change? (id : String) : Call → Answer → Option Change
  | .add p, .added true => if p.id = id then some (.added p) else none
  | .remove i, .removed (some p) => if i = id then some (.removed p) else none
  | _, _ => none

/-- some calls lead to this registry -/
inductive Reached : Registry → Prop
  | empty : Reached empty
  | after {r : Registry} (c : Call) : Reached r → Reached (r.call c).1

/-! ## one call -/

section
variable {r : Registry} {p : Peer} {id : String}

theorem id_of_find? (h : r.find? id = some p) : p.id = id := by
  simpa using List.find?_some h

theorem contains_iff : r.contains id = true ↔ ∃ p, r.find? id = some p := Option.isSome_iff_exists

theorem contains_eq_false_iff : r.contains id = false ↔ r.find? id = none :=
  Option.isSome_eq_false_iff.trans Option.isNone_iff_eq_none

theorem add_of_known (h : r.contains p.id = true) : r.add p = (r, false) := if_pos h

theorem add_of_new (h : r.contains p.id = false) : r.add p = (⟨p :: r.peers⟩, true) :=
  if_neg (Bool.eq_false_iff.mp h)

theorem contains_add (r : Registry) (p : Peer) : (r.add p).1.contains p.id = true := by
  cases hk : r.contains p.id with
  | true => rwa [add_of_known hk]
  | false => rw [add_of_new hk, contains, find?_cons, if_pos rfl]; rfl

theorem contains_add_of_contains (p : Peer) (h : r.contains id = true) :
    (r.add p).1.contains id = true := by
  cases hk : r.contains p.id with
  | true => rwa [add_of_known hk]
  | false =>
    rw [add_of_new hk, contains, find?_cons]
    split
    · rfl
    · exact h

/-- a peer is refused exactly if its identifier is known -/
theorem add_refused_iff : (r.add p).2 = false ↔ r.contains p.id = true := by
  cases hk : r.contains p.id with
  | true => simp [add_of_known hk]
  | false => simp [add_of_new hk]

/-- a refused peer changes nothing -/
theorem add_of_refused (h : (r.add p).2 = false) : (r.add p).1 = r := by
  rw [add_of_known (add_refused_iff.mp h)]

theorem find?_remove (r : Registry) (id i : String) :
    (r.remove id).1.find? i = if id = i then none else r.find? i := by
  show (r.peers.filter _).find? _ = _
  rw [List.find?_filter]
  split
  · rename_i hid
    subst hid
    simp
  · rename_i hid
    congr 1
    funext q
    by_cases hq : q.id = i
    · simp [hq, Ne.symm hid]
    · simp [hq]

/-- a call to add takes nothing away, however it is answered -/
theorem change?_add_ne_removed (id : String) (p q : Peer) (answer : Answer) :
    change? id (.add p) answer ≠ some (.removed q) := by
  cases answer with
  | removed _ => exact nofun
  | added new =>
    cases new with
    | false => exact nofun
    | true =>
      show (if p.id = id then some (Change.added p) else none) ≠ _
      split
      · exact nofun
      · exact nofun

/-- **What a call does to the entry of an identifier:** it leaves it alone, or it adds one where
there was none, or it takes away the one that was there. -/
theorem call_cases (r : Registry) (c : Call) (id : String) :
    (change? id c (r.call c).2 = none ∧ (r.call c).1.find? id = r.find? id) ∨
    (∃ p, c = .add p ∧ change? id c (r.call c).2 = some (.added p) ∧ r.find? id = none ∧
      (r.call c).1.find? id = some p) ∨
    ∃ p, c = .remove id ∧ change? id c (r.call c).2 = some (.removed p) ∧ r.find? id = some p ∧
      (r.call c).1.find? id = none := by
  cases c with
  | add p =>
    cases hk : r.contains p.id with
    | true =>
      refine .inl ?_
      rw [call, add_of_known hk]
      exact ⟨rfl, rfl⟩
    | false =>
      rw [call, add_of_new hk]
      by_cases hid : p.id = id
      · subst hid
        refine .inr (.inl ⟨p, rfl, if_pos rfl, contains_eq_false_iff.mp hk, ?_⟩)
        rw [find?_cons, if_pos rfl]
      · refine .inl ⟨if_neg hid, ?_⟩
        rw [find?_cons, if_neg hid]
  | remove i =>
    have hfind : (r.call (.remove i)).1.find? id = if i = id then none else r.find? id :=
      find?_remove r i id
    have hanswer : (r.call (.remove i)).2 = .removed (r.find? i) := rfl
    rw [hfind, hanswer]
    by_cases hid : i = id
    · subst hid
      cases hp : r.find? i with
      | none => exact .inl ⟨rfl, if_pos rfl⟩
      | some p => exact .inr (.inr ⟨p, rfl, if_pos rfl, rfl, if_pos rfl⟩)
    · refine .inl ⟨?_, if_neg hid⟩
      cases r.find? i with
      | none => rfl
      | some p => exact if_neg hid

/-! ## reached registries -/

theorem mem_ids_iff : id ∈ r.peers.map Peer.id ↔ r.contains id = true := by
  simp [contains, find?]

/-- no identifier occurs twice -/
theorem Reached.nodup (h : r.Reached) : (r.peers.map Peer.id).Nodup := by
  induction h with
  | empty => exact List.nodup_nil
  | @after r c hr ih =>
    cases c with
    | add p =>
      cases hk : r.contains p.id with
      | true => rwa [call, add_of_known hk]
      | false =>
        rw [call, add_of_new hk]
        refine List.nodup_cons.mpr ⟨fun hmem => ?_, ih⟩
        rw [mem_ids_iff.mp hmem] at hk
        cases hk
    | remove id => exact ih.sublist (List.filter_sublist.map _)

theorem Reached.find?_eq_some_iff (h : r.Reached) :
    r.find? id = some p ↔ p ∈ r.peers ∧ p.id = id := by
  constructor
  · intro hp
    exact ⟨List.mem_of_find?_eq_some hp, id_of_find? hp⟩
  · rintro ⟨hmem, rfl⟩
    obtain ⟨q, hq⟩ := contains_iff.mp (mem_ids_iff.mp (List.mem_map_of_mem hmem))
    have hqp : q = p :=
      List.inj_on_of_nodup_map h.nodup (List.mem_of_find?_eq_some hq) hmem (id_of_find? hq)
    rw [hq, hqp]

theorem Reached.size_remove (h : r.Reached) (id : String) :
    (r.remove id).1.size + (r.contains id).toNat = r.size := by
  have hcount : r.peers.countP (·.id = id) = (r.contains id).toNat := by
    have hc : r.peers.countP (·.id = id) = (r.peers.map Peer.id).count id := by
      rw [List.count, List.countP_map]
      congr 1
    rw [hc, h.nodup.count]
    simp only [mem_ids_iff]
    cases r.contains id <;> rfl
  have hlen := List.length_eq_countP_add_countP (fun q : Peer => decide (q.id = id)) (l := r.peers)
  rw [hcount] at hlen
  have hfilter : (r.remove id).1.size
      = r.peers.countP fun q => decide ¬ decide (q.id = id) = true := by
    rw [List.countP_eq_length_filter]
    simp [remove, size]
  rw [hfilter, size, hlen, Nat.add_comm]

/-- a successful call makes the registry larger or smaller by one -/
theorem Reached.size_call (h : r.Reached) (c : Call) :
    (r.call c).1.size + (r.call c).2.isRemoval.toNat
      = r.size + (r.call c).2.isAddition.toNat := by
  cases c with
  | add p =>
    cases hk : r.contains p.id with
    | true => rw [call, add_of_known hk]; rfl
    | false => rw [call, add_of_new hk]; rfl
  | remove id => exact h.size_remove id

end

end ChunkLedger.Wire.Registry
