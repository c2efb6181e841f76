import ChunkLedger.Proofs.Json.Token
import Mathlib.Data.List.Induction

/-!
# Sorted fields

Sorting puts the fields of an object in the order of their names (`Ascending`), and fields that are
in this order are left as they are (`sortFields_of_ascending`).  So a value is left as it is if all
its objects are in order (`Ordered`, `sorted_of_ordered`), which they are after sorting
(`ordered_sorted`), and sorting once is enough (`sorted_sorted`).

Fields whose names differ are only put in another order: those of the keys `ks` become those of a
permutation of `ks` (`exists_perm_sortFields`).
-/

namespace ChunkLedger.Json.Value

/-- in the order of their names, no name twice -/
def Ascending (fs : List (String × Value)) : Prop := fs.Pairwise fun f g => f.1 < g.1

theorem lt_of_not_lt {m n : String} (hne : m ≠ n) (h : ¬ m < n) : n < m :=
  Std.lt_of_le_of_ne (String.not_lt.mp h) hne.symm

/-! ## inserting a field -/

theorem insertField_cons (name : String) (v : Value) (f : String × Value)
    (fs : List (String × Value)) :
    insertField name v (f :: fs) =
      if name = f.1 then (name, v) :: fs
      else if name < f.1 then (name, v) :: f :: fs
      else f :: insertField name v fs := rfl

theorem mem_insertField {name : String} {v : Value} {f : String × Value}
    {fs : List (String × Value)} (h : f ∈ insertField name v fs) : f = (name, v) ∨ f ∈ fs := by
  induction fs with
  | nil => exact .inl (List.mem_singleton.mp h)
  | cons g gs ih =>
    rw [insertField_cons] at h
    split at h
    · rcases List.mem_cons.mp h with rfl | h
      · exact .inl rfl
      · exact .inr (List.mem_cons_of_mem g h)
    · split at h
      · exact List.mem_cons.mp h
      · rcases List.mem_cons.mp h with rfl | h
        · exact .inr List.mem_cons_self
        · exact (ih h).imp_right (List.mem_cons_of_mem g)

theorem ascending_insertField (name : String) (v : Value) {fs : List (String × Value)}
    (h : Ascending fs) : Ascending (insertField name v fs) := by
  induction fs with
  | nil => exact List.pairwise_singleton ..
  | cons g gs ih =>
    obtain ⟨hg, hgs⟩ := List.pairwise_cons.mp h
    rw [insertField_cons]
    split
    · rename_i e
      refine List.pairwise_cons.mpr ⟨?_, hgs⟩
      intro f hf
      rw [e]
      exact hg f hf
    · rename_i hne
      split
      · rename_i hlt
        refine List.pairwise_cons.mpr ⟨?_, h⟩
        intro f hf
        rcases List.mem_cons.mp hf with rfl | hf
        · exact hlt
        · exact String.lt_trans hlt (hg f hf)
      · rename_i hnlt
        refine List.pairwise_cons.mpr ⟨?_, ih hgs⟩
        intro f hf
        rcases mem_insertField hf with rfl | hf
        · exact lt_of_not_lt hne hnlt
        · exact hg f hf

/-- a field whose name is greater than all others goes to the end -/
theorem insertField_of_forall_lt {name : String} (v : Value) {fs : List (String × Value)}
    (h : ∀ f ∈ fs, f.1 < name) : insertField name v fs = fs ++ [(name, v)] := by
  induction fs with
  | nil => rfl
  | cons g gs ih =>
    have hg := h g List.mem_cons_self
    have hne : name ≠ g.1 := by
      intro e
      rw [e] at hg
      exact String.lt_irrefl _ hg
    rw [insertField_cons, if_neg hne, if_neg (String.lt_asymm hg),
      ih fun f hf => h f (List.mem_cons_of_mem g hf), List.cons_append]

/-! ## sorting -/

theorem sortFields_concat (fs : List (String × Value)) (f : String × Value) :
    sortFields (fs ++ [f]) = insertField f.1 f.2 (sortFields fs) := by
  rw [sortFields, List.foldl_append]
  rfl

theorem ascending_sortFields (fs : List (String × Value)) : Ascending (sortFields fs) := by
  induction fs using List.reverseRecOn with
  | nil => exact List.Pairwise.nil
  | append_singleton fs f ih =>
    rw [sortFields_concat]
    exact ascending_insertField f.1 f.2 ih

theorem mem_sortFields {f : String × Value} {fs : List (String × Value)}
    (h : f ∈ sortFields fs) : f ∈ fs := by
  induction fs using List.reverseRecOn with
  | nil => exact h
  | append_singleton fs g ih =>
    rw [sortFields_concat] at h
    rcases mem_insertField h with rfl | h
    · exact List.mem_append_right _ (List.mem_singleton_self _)
    · exact List.mem_append_left _ (ih h)

/-- fields in order are left as they are -/
theorem sortFields_of_ascending {fs : List (String × Value)} (h : Ascending fs) :
    sortFields fs = fs := by
  induction fs using List.reverseRecOn with
  | nil => rfl
  | append_singleton fs f ih =>
    obtain ⟨hfs, -, hlt⟩ := List.pairwise_append.mp h
    rw [sortFields_concat, ih hfs, insertField_of_forall_lt]
    intro g hg
    exact hlt g hg f (List.mem_singleton_self f)

mutual

/-- the fields of every object, at every depth, are in the order of their names, no name twice -/
def Ordered : Value → Prop
  | .array items => OrderedItems items
  | .object fields => Ascending fields ∧ OrderedFields fields
  | _ => True

def OrderedItems : List Value → Prop
  | [] => True
  | v :: vs => v.Ordered ∧ OrderedItems vs

def OrderedFields : List (String × Value) → Prop
  | [] => True
  | (_, v) :: fs => v.Ordered ∧ OrderedFields fs

end

mutual

theorem sorted_of_ordered (v : Value) (h : v.Ordered) : v.sorted = v := by
  match v with
  | .null => simp [sorted]
  | .bool b => simp [sorted]
  | .number n => simp [sorted]
  | .text s => simp [sorted]
  | .array vs =>
    rw [Ordered] at h
    rw [sorted, sortedItems_of_ordered vs h]
  | .object fs =>
    rw [Ordered] at h
    rw [sorted, sortedValues_of_ordered fs h.2, sortFields_of_ascending h.1]

theorem sortedItems_of_ordered (vs : List Value) (h : OrderedItems vs) : sortedItems vs = vs := by
  match vs with
  | [] => exact sortedItems_nil
  | v :: vs =>
    rw [OrderedItems] at h
    rw [sortedItems_cons, sorted_of_ordered v h.1, sortedItems_of_ordered vs h.2]

theorem sortedValues_of_ordered (fs : List (String × Value)) (h : OrderedFields fs) :
    sortedValues fs = fs := by
  match fs with
  | [] => exact sortedValues_nil
  | (n, v) :: fs =>
    rw [OrderedFields] at h
    rw [sortedValues_cons, sorted_of_ordered v h.1, sortedValues_of_ordered fs h.2]

end

theorem orderedFields_iff {fs : List (String × Value)} :
    OrderedFields fs ↔ ∀ f ∈ fs, f.2.Ordered := by
  induction fs with
  | nil => simp [OrderedFields]
  | cons f fs ih =>
    obtain ⟨n, v⟩ := f
    rw [OrderedFields, ih, List.forall_mem_cons]

mutual

theorem ordered_sorted (v : Value) : v.sorted.Ordered := by
  match v with
  | .null => simp [sorted, Ordered]
  | .bool b => simp [sorted, Ordered]
  | .number n => simp [sorted, Ordered]
  | .text s => simp [sorted, Ordered]
  | .array vs =>
    rw [sorted, Ordered]
    exact orderedItems_sortedItems vs
  | .object fs =>
    rw [sorted, Ordered, orderedFields_iff]
    refine ⟨ascending_sortFields _, ?_⟩
    intro f hf
    exact orderedFields_iff.mp (orderedFields_sortedValues fs) f (mem_sortFields hf)

theorem orderedItems_sortedItems (vs : List Value) : OrderedItems (sortedItems vs) := by
  match vs with
  | [] => simp [OrderedItems]
  | v :: vs =>
    rw [sortedItems_cons, OrderedItems]
    exact ⟨ordered_sorted v, orderedItems_sortedItems vs⟩

theorem orderedFields_sortedValues (fs : List (String × Value)) :
    OrderedFields (sortedValues fs) := by
  match fs with
  | [] => simp [OrderedFields]
  | (n, v) :: fs =>
    rw [sortedValues_cons, OrderedFields]
    exact ⟨ordered_sorted v, orderedFields_sortedValues fs⟩

end

/-- sorting once is enough -/
theorem sorted_sorted (v : Value) : v.sorted.sorted = v.sorted :=
  sorted_of_ordered _ (ordered_sorted v)

@[simp] theorem sorted_text (s : String) : (text s).sorted = text s := by simp [sorted]

@[simp] theorem sorted_bool (b : Bool) : (bool b).sorted = bool b := by simp [sorted]

@[simp] theorem sorted_ofNat64 (n : UInt64) : (ofNat64 n).sorted = ofNat64 n := by
  simp [ofNat64, sorted]

theorem sorted_array (vs : List Value) : (array vs).sorted = array (vs.map sorted) := by
  rw [sorted, sortedItems_eq_map]

/-! ## what sorting keeps -/

mutual

/-- sorting makes no doubles -/
theorem whole_sorted (v : Value) (h : v.Whole) : v.sorted.Whole := by
  match v with
  | .null => simpa [sorted] using h
  | .bool b => simpa [sorted] using h
  | .number n => simpa [sorted] using h
  | .text s => simpa [sorted] using h
  | .array vs =>
    rw [sorted, Whole]
    rw [Whole] at h
    exact wholeItems_sortedItems vs h
  | .object fs =>
    rw [sorted, Whole, wholeFields_iff]
    rw [Whole] at h
    intro f hf
    exact wholeFields_iff.mp (wholeFields_sortedValues fs h) f (mem_sortFields hf)

theorem wholeItems_sortedItems (vs : List Value) (h : WholeItems vs) :
    WholeItems (sortedItems vs) := by
  match vs with
  | [] => rw [sortedItems]; exact h
  | v :: vs =>
    rw [WholeItems] at h
    rw [sortedItems_cons, WholeItems]
    exact ⟨whole_sorted v h.1, wholeItems_sortedItems vs h.2⟩

theorem wholeFields_sortedValues (fs : List (String × Value)) (h : WholeFields fs) :
    WholeFields (sortedValues fs) := by
  match fs with
  | [] => rw [sortedValues]; exact h
  | (n, v) :: fs =>
    rw [WholeFields] at h
    rw [sortedValues_cons, WholeFields]
    exact ⟨whole_sorted v h.1, wholeFields_sortedValues fs h.2⟩

end

theorem itemsDepth_le_iff {vs : List Value} {n : Nat} :
    itemsDepth vs ≤ n ↔ ∀ v ∈ vs, v.depth ≤ n := by
  induction vs with
  | nil => simp [itemsDepth]
  | cons v vs ih => rw [itemsDepth, Nat.max_le, ih, List.forall_mem_cons]

theorem depth_ofNat64_le (n : UInt64) : (ofNat64 n).depth ≤ 0 := by simp [ofNat64, depth]

theorem itemsDepth_map_le {α : Type} {f : α → Value} {n : Nat} (h : ∀ a, (f a).depth ≤ n)
    (as : List α) : itemsDepth (as.map f) ≤ n := by
  rw [itemsDepth_le_iff, List.forall_mem_map]
  intro a _
  exact h a

theorem fieldsDepth_le_iff {fs : List (String × Value)} {n : Nat} :
    fieldsDepth fs ≤ n ↔ ∀ f ∈ fs, f.2.depth ≤ n := by
  induction fs with
  | nil => simp [fieldsDepth]
  | cons f fs ih =>
    obtain ⟨m, v⟩ := f
    rw [fieldsDepth, Nat.max_le, ih, List.forall_mem_cons]

mutual

/-- nothing gets deeper by sorting -/
theorem depth_sorted_le (v : Value) : v.sorted.depth ≤ v.depth := by
  match v with
  | .null => simp [sorted]
  | .bool b => simp [sorted]
  | .number n => simp [sorted]
  | .text s => simp [sorted]
  | .array vs =>
    rw [sorted, depth, depth]
    exact Nat.succ_le_succ (itemsDepth_sortedItems_le vs)
  | .object fs =>
    rw [sorted, depth, depth]
    refine Nat.succ_le_succ (fieldsDepth_le_iff.mpr ?_)
    intro f hf
    exact fieldsDepth_le_iff.mp (fieldsDepth_sortedValues_le fs) f (mem_sortFields hf)

theorem itemsDepth_sortedItems_le (vs : List Value) :
    itemsDepth (sortedItems vs) ≤ itemsDepth vs := by
  match vs with
  | [] => simp
  | v :: vs =>
    rw [sortedItems_cons, itemsDepth, itemsDepth]
    have hv := depth_sorted_le v
    have hvs := itemsDepth_sortedItems_le vs
    omega

theorem fieldsDepth_sortedValues_le (fs : List (String × Value)) :
    fieldsDepth (sortedValues fs) ≤ fieldsDepth fs := by
  match fs with
  | [] => simp
  | (n, v) :: fs =>
    rw [sortedValues_cons, fieldsDepth, fieldsDepth]
    show max v.sorted.depth (fieldsDepth (sortedValues fs)) ≤ max v.depth (fieldsDepth fs)
    have hv := depth_sorted_le v
    have hfs := fieldsDepth_sortedValues_le fs
    omega

end

/-! ## fields of keys -/

section
variable {κ : Type} {label : κ → String} (hl : ∀ j k, label j = label k → j = k)
  (value : κ → Value)
include hl

theorem exists_perm_insertField {k : κ} {ks : List κ} (hk : k ∉ ks) :
    ∃ js : List κ, js.Perm (k :: ks) ∧
      insertField (label k) (value k) (ks.map fun j => (label j, value j))
        = js.map fun j => (label j, value j) := by
  induction ks with
  | nil => exact ⟨[k], List.Perm.refl _, rfl⟩
  | cons i is ih =>
    obtain ⟨hne, his⟩ := not_or.mp (mt List.mem_cons.mpr hk)
    have hlabel : label k ≠ label i := fun e => hne (hl k i e)
    rw [List.map_cons, insertField_cons, if_neg hlabel]
    split
    · exact ⟨k :: i :: is, List.Perm.refl _, rfl⟩
    · obtain ⟨js, hperm, hjs⟩ := ih his
      refine ⟨i :: js, (hperm.cons i).trans (List.Perm.swap k i is), ?_⟩
      rw [hjs, List.map_cons]

/-- fields with different names are only put in another order -/
theorem exists_perm_sortFields {ks : List κ} (hnd : ks.Nodup) :
    ∃ js : List κ, js.Perm ks ∧
      sortFields (ks.map fun k => (label k, value k)) = js.map fun k => (label k, value k) := by
  induction ks using List.reverseRecOn with
  | nil => exact ⟨[], List.Perm.refl _, rfl⟩
  | append_singleton ks k ih =>
    obtain ⟨hks, -, hne⟩ := List.nodup_append.mp hnd
    obtain ⟨is, hperm, his⟩ := ih hks
    have hk : k ∉ is := fun h => hne k (hperm.mem_iff.mp h) k (List.mem_singleton_self k) rfl
    obtain ⟨js, hperm', hjs⟩ := exists_perm_insertField hl value hk
    refine ⟨js, ?_, ?_⟩
    · exact hperm'.trans ((hperm.cons k).trans (List.perm_append_singleton k ks).symm)
    · rw [List.map_append, List.map_singleton, sortFields_concat, his, hjs]

end

end ChunkLedger.Json.Value
