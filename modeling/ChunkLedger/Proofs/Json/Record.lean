import ChunkLedger.Json.Record
import ChunkLedger.Proofs.Json.Doc
import ChunkLedger.Proofs.Json.Sorted

/-!
# Reading what is written

Values are read from a document in which texts stand as they were written, or as they are; all that
is needed of them is that they decode (`Faithful`).  Any value is read if there is room for its
depth (`value?_docBy`), and refused otherwise (`value?_docBy_of_lt`).

A record is read from an object with its fields in any order, each at most once; fields that are not
there have their defaults (`Layout.readRecord_object`).  So it is read from a sorted object as well
(`Layout.readRecord_sorted`).  A field that cannot be read, after others that can, is what is wrong
with the record (`Layout.readRecord_object_of_error`).
-/

namespace ChunkLedger.Json

/-- a text is found again in the way it stands in a document -/
def Faithful (raw : String → RawText) : Prop := ∀ s, (raw s).decode = .ok s

theorem faithful_written : Faithful .written := decode_written

theorem faithful_ofString : Faithful .ofString := by
  intro s
  rw [RawText.decode, RawText.ofString, RawText.bytesOf_bytes]
  simp only [List.reverse_nil, List.nil_append, ofUtf8?_utf8]

/-! ## single values -/

section
variable {raw : String → RawText}

theorem readNatural_docBy (raw : String → RawText) (name : String) (n : UInt64) :
    readNatural name ((Value.ofNat64 n).docBy raw) = .ok n := by
  rw [Value.ofNat64, Value.docBy]
  rfl

theorem readBool_docBy (raw : String → RawText) (b : Bool) :
    readBool ((Value.bool b).docBy raw) = .ok b := by
  rw [Value.docBy]
  rfl

theorem readText_docBy (h : Faithful raw) (expected s : String) :
    readText expected ((Value.text s).docBy raw) = .ok s := by
  rw [Value.docBy, readText, h s]
  rfl

theorem readBytes_docBy (h : Faithful raw) {s : String} {bs : Bytes} (hs : Hex.decode s = .ok bs) :
    readBytes ((Value.text s).docBy raw) = .ok bs := by
  rw [readBytes, readString, readText_docBy h]
  show ofHex (Hex.decode s) = .ok bs
  rw [hs]
  rfl

theorem readDigest_docBy (h : Faithful raw) {s : String} {d : Digest} (hd : Digest.ofHex s = .ok d) :
    readDigest ((Value.text s).docBy raw) = .ok d := by
  rw [readDigest, readString, readText_docBy h]
  show ofHex (Digest.ofHex s) = .ok d
  rw [hd]
  rfl

theorem readDigest?_text (t : RawText) :
    readDigest? (.text t) = do
      let s ← readString (.text t)
      if s = "" then return none
      let h ← ofHex (Digest.ofHex s)
      return some h := rfl

theorem readDigest?_docBy_empty (h : Faithful raw) :
    readDigest? ((Value.text "").docBy raw) = .ok none := by
  have hs := readText_docBy h "a string" ""
  rw [Value.docBy] at hs ⊢
  rw [readDigest?_text, readString, hs]
  rfl

theorem readDigest?_docBy (h : Faithful raw) {s : String} {d : Digest} (hne : s ≠ "")
    (hd : Digest.ofHex s = .ok d) : readDigest? ((Value.text s).docBy raw) = .ok (some d) := by
  have hs := readText_docBy h "a string" s
  rw [Value.docBy] at hs ⊢
  rw [readDigest?_text, readString, hs]
  show (if s = "" then pure none else do
    let h ← ofHex (Digest.ofHex s)
    return some h : Except Problem (Option Digest)) = _
  rw [if_neg hne, hd]
  rfl

theorem readInstant_docBy (h : Faithful raw) {s : String} {t : Instant}
    (ht : Rfc3339.read s = .ok t) : readInstant ((Value.text s).docBy raw) = .ok t := by
  rw [readInstant, readText_docBy h]
  simp only [ht, bind, Except.bind]
  rfl

end

/-- a name is read as what it stands for -/
theorem readVariant_docBy {raw : String → RawText} (h : Faithful raw) {α : Type}
    {known : List (String × α)} {s : String} {a : α} (ha : variantNamed known s = .ok a) :
    readVariant known ((Value.text s).docBy raw) = .ok a := by
  rw [Value.docBy]
  show (do
    let name ← ofForm (raw s).decode
    variantNamed known name : Except Problem α) = _
  rw [h s]
  exact ha

/-! ## any value -/

section
variable {raw : String → RawText}

mutual

/-- any value is found again in its document, if there is room for its depth -/
theorem value?_docBy (h : Faithful raw) (v : Value) {room : Nat} (hd : v.depth ≤ room) :
    (v.docBy raw).value? room = .ok v := by
  match v with
  | .null => rw [Value.docBy, Doc.value?]
  | .bool b => rw [Value.docBy, Doc.value?]
  | .number n => rw [Value.docBy, Doc.value?]; rfl
  | .text s => rw [Value.docBy, Doc.value?, h s]; rfl
  | .array vs =>
    rw [Value.depth] at hd
    obtain ⟨room, rfl⟩ : ∃ r, room = r + 1 := ⟨room - 1, by omega⟩
    rw [Value.docBy, Doc.value?, itemValues_docBy h vs (Nat.le_of_succ_le_succ hd)]
    rfl
  | .object fs =>
    rw [Value.depth] at hd
    obtain ⟨room, rfl⟩ : ∃ r, room = r + 1 := ⟨room - 1, by omega⟩
    rw [Value.docBy, Doc.value?, fieldValues_docBy h fs (Nat.le_of_succ_le_succ hd)]
    rfl

theorem itemValues_docBy (h : Faithful raw) (vs : List Value) {room : Nat}
    (hd : Value.itemsDepth vs ≤ room) :
    Doc.itemValues room (Value.itemDocsBy raw vs) = .ok vs := by
  match vs with
  | [] => rw [Value.itemDocsBy, Doc.itemValues]
  | v :: vs =>
    rw [Value.itemsDepth, Nat.max_le] at hd
    rw [Value.itemDocsBy, Doc.itemValues, value?_docBy h v hd.1, itemValues_docBy h vs hd.2]
    rfl

theorem fieldValues_docBy (h : Faithful raw) (fs : List (String × Value)) {room : Nat}
    (hd : Value.fieldsDepth fs ≤ room) :
    Doc.fieldValues room (Value.fieldDocsBy raw fs) = .ok fs := by
  match fs with
  | [] => rw [Value.fieldDocsBy, Doc.fieldValues]
  | (n, v) :: fs =>
    rw [Value.fieldsDepth, Nat.max_le] at hd
    rw [Value.fieldDocsBy, Doc.fieldValues, h n]
    show (do
      let v ← (v.docBy raw).value? room
      let fs ← Doc.fieldValues room (Value.fieldDocsBy raw fs)
      return (n, v) :: fs : Except Break (List (String × Value))) = _
    rw [value?_docBy h v hd.1, fieldValues_docBy h fs hd.2]
    rfl

end

mutual

/-- a value that is too deep is refused: the containers on the way to its deepest one take up all
the room, and what stands before them is read -/
theorem value?_docBy_of_lt (h : Faithful raw) (v : Value) {room : Nat} (hd : room < v.depth) :
    (v.docBy raw).value? room = .error .malformed := by
  match v with
  | .null => simp [Value.depth] at hd
  | .bool b => simp [Value.depth] at hd
  | .number n => simp [Value.depth] at hd
  | .text s => simp [Value.depth] at hd
  | .array vs =>
    rw [Value.docBy]
    cases room with
    | zero => rw [Doc.value?]
    | succ room =>
      rw [Value.depth] at hd
      rw [Doc.value?, itemValues_docBy_of_lt h vs (Nat.lt_of_succ_lt_succ hd)]
      rfl
  | .object fs =>
    rw [Value.docBy]
    cases room with
    | zero => rw [Doc.value?]
    | succ room =>
      rw [Value.depth] at hd
      rw [Doc.value?, fieldValues_docBy_of_lt h fs (Nat.lt_of_succ_lt_succ hd)]
      rfl

theorem itemValues_docBy_of_lt (h : Faithful raw) (vs : List Value) {room : Nat}
    (hd : room < Value.itemsDepth vs) :
    Doc.itemValues room (Value.itemDocsBy raw vs) = .error .malformed := by
  match vs with
  | [] => cases hd
  | v :: vs =>
    rw [Value.itemsDepth] at hd
    rw [Value.itemDocsBy, Doc.itemValues]
    by_cases hv : v.depth ≤ room
    · have hvs : room < Value.itemsDepth vs := by omega
      rw [value?_docBy h v hv, itemValues_docBy_of_lt h vs hvs]
      rfl
    · rw [value?_docBy_of_lt h v (Nat.lt_of_not_le hv)]
      rfl

theorem fieldValues_docBy_of_lt (h : Faithful raw) (fs : List (String × Value)) {room : Nat}
    (hd : room < Value.fieldsDepth fs) :
    Doc.fieldValues room (Value.fieldDocsBy raw fs) = .error .malformed := by
  match fs with
  | [] => cases hd
  | (n, v) :: fs =>
    rw [Value.fieldsDepth] at hd
    rw [Value.fieldDocsBy, Doc.fieldValues, h n]
    show (do
      let v ← (v.docBy raw).value? room
      let fs ← Doc.fieldValues room (Value.fieldDocsBy raw fs)
      return (n, v) :: fs : Except Break (List (String × Value))) = _
    by_cases hv : v.depth ≤ room
    · have hfs : room < Value.fieldsDepth fs := by omega
      rw [value?_docBy h v hv, fieldValues_docBy_of_lt h fs hfs]
      rfl
    · rw [value?_docBy_of_lt h v (Nat.lt_of_not_le hv)]
      rfl

end

/-- any value is read with its fields sorted -/
theorem readAny_docBy (h : Faithful raw) {v : Value} {room : Nat} (hd : v.depth ≤ room) :
    readAny room (v.docBy raw) = .ok v.sorted := by
  rw [readAny, value?_docBy h v hd]
  rfl

theorem readAny_docBy_of_lt (h : Faithful raw) {v : Value} {room : Nat} (hd : room < v.depth) :
    readAny room (v.docBy raw) = .error (.form .malformed) := by
  rw [readAny, value?_docBy_of_lt h v hd]
  rfl

end

/-! ## lists -/

theorem readItems_map {α : Type} {r : Reader α} {as : List α} {doc : α → Doc}
    (h : ∀ a ∈ as, r (doc a) = .ok a) : readItems r (as.map doc) = .ok as := by
  induction as with
  | nil => rfl
  | cons a as ih =>
    rw [List.map_cons, readItems, h a List.mem_cons_self,
      ih fun b hb => h b (List.mem_cons_of_mem a hb)]
    rfl

theorem readList_array {α : Type} {r : Reader α} {as : List α} {doc : α → Doc}
    (h : ∀ a ∈ as, r (doc a) = .ok a) : readList r (.array (as.map doc) .closed) = .ok as := by
  rw [readList, readItems_map h]
  rfl

/-- a list is read when its items have been sorted -/
theorem readList_sorted {α : Type} {r : Reader α} {as : List α} {raw : String → RawText}
    (value : α → Value) (h : ∀ a ∈ as, r ((value a).sorted.docBy raw) = .ok a) :
    readList r ((Value.array (as.map value)).sorted.docBy raw) = .ok as := by
  rw [Value.sorted_array, Value.docBy, Value.itemDocsBy_eq_map, List.map_map, List.map_map]
  exact readList_array h

/-! ## records -/

namespace Layout

variable {κ : Type} {φ : κ → Type} {l : Layout κ φ}

/-- a field is found by its name -/
theorem key?_label (hl : ∀ j k, l.label j = l.label k → j = k) (k : κ) :
    l.key? (l.label k) = some k := by
  unfold key?
  cases hf : l.keys.find? (fun j => decide (l.label j = l.label k)) with
  | none => exact absurd (decide_eq_true rfl) (List.find?_eq_none.mp hf k (l.mem_keys k))
  | some j => rw [hl j k (by simpa using List.find?_some hf)]

/-- a record is complete when each field is there or has its default -/
theorem complete?_eq_ok {c : Collected φ} {f : (k : κ) → φ k}
    (h : ∀ k, (c k).or (l.absent k) = some (f k)) : l.complete? c = .ok f := by
  unfold complete?
  split
  · rename_i k hk
    have hnone := List.find?_some hk
    rw [h k] at hnone
    cases hnone
  · congr 1
    funext k
    rw [Option.get_of_eq_some]
    exact h k

variable [DecidableEq κ]

/-- the fields `ks`, in this order, put to what has been read -/
theorem readFields_map (hl : ∀ j k, l.label j = l.label k → j = k) {f : (k : κ) → φ k}
    {name : κ → RawText} {doc : κ → Doc} (hname : ∀ k, (name k).decode = .ok (l.label k))
    {ks : List κ} (hnd : ks.Nodup) (hread : ∀ k ∈ ks, l.read k (doc k) = .ok (f k))
    (c : Collected φ) (hnew : ∀ k ∈ ks, c k = none) :
    ∃ c', l.readFields c (ks.map fun k => (name k, doc k)) = .ok c' ∧
      ∀ k, c' k = if k ∈ ks then some (f k) else c k := by
  induction ks generalizing c with
  | nil => exact ⟨c, rfl, fun k => rfl⟩
  | cons k ks ih =>
    obtain ⟨hk, hnd⟩ := List.nodup_cons.mp hnd
    have hput : ∀ j ∈ ks, put c k (f k) j = none := by
      intro j hj
      have hne : j ≠ k := by
        rintro rfl
        exact hk hj
      rw [put_of_ne c (f k) hne]
      exact hnew j (List.mem_cons_of_mem k hj)
    obtain ⟨c', hc', hval⟩ := ih hnd (fun j hj => hread j (List.mem_cons_of_mem k hj))
      (put c k (f k)) hput
    refine ⟨c', ?_, ?_⟩
    · rw [List.map_cons, readFields, hname k]
      simp only [ofForm_ok, key?_label hl, hnew k List.mem_cons_self, hread k List.mem_cons_self,
        bind, Except.bind, Option.isSome_none, Bool.false_eq_true, if_false]
      exact hc'
    · intro j
      rw [hval]
      by_cases e : j = k
      · subst e
        rw [if_neg hk, if_pos List.mem_cons_self, put_self]
      · rw [put_of_ne c (f k) e]
        simp only [List.mem_cons, e, false_or]

/-- **A record is read from its fields in any order**, with the defaults for those left out. -/
theorem readRecord_object (hl : ∀ j k, l.label j = l.label k → j = k) (src : Source)
    {f : (k : κ) → φ k} {name : κ → RawText} {doc : κ → Doc}
    (hname : ∀ k, (name k).decode = .ok (l.label k)) {ks : List κ} (hnd : ks.Nodup)
    (hread : ∀ k ∈ ks, l.read k (doc k) = .ok (f k))
    (habsent : ∀ k, k ∉ ks → l.absent k = some (f k)) :
    l.readRecord src (.object (ks.map fun k => (name k, doc k)) .closed) = .ok f := by
  obtain ⟨c, hc, hval⟩ := readFields_map hl hname hnd hread (fun _ => none) fun _ _ => rfl
  have hcomplete : l.complete? c = .ok f := by
    apply complete?_eq_ok
    intro k
    rw [hval]
    by_cases hk : k ∈ ks
    · rw [if_pos hk]
      rfl
    · rw [if_neg hk]
      exact habsent k hk
  rw [readRecord, hc]
  exact hcomplete

theorem readFields_append (c : Collected φ) (fs gs : List (RawText × Doc)) :
    l.readFields c (fs ++ gs) = l.readFields c fs >>= fun c => l.readFields c gs := by
  induction fs generalizing c with
  | nil => rfl
  | cons f fs ih =>
    obtain ⟨t, d⟩ := f
    rw [List.cons_append, readFields, readFields]
    simp only [bind_assoc]
    congr 1
    funext name
    cases l.key? name with
    | none => simp only [ih, bind_assoc]
    | some k =>
      simp only [ih]
      split
      · rfl
      · simp only [bind_assoc]

/-- a record is not read if one of its fields is not, after those before it are -/
theorem readRecord_object_of_error (hl : ∀ j k, l.label j = l.label k → j = k) (src : Source)
    {f : (k : κ) → φ k} {name : κ → RawText} {doc : κ → Doc}
    (hname : ∀ k, (name k).decode = .ok (l.label k)) {ks js : List κ} {k : κ}
    (hnd : (ks ++ k :: js).Nodup) (hread : ∀ j ∈ ks, l.read j (doc j) = .ok (f j)) {p : Problem}
    (hk : l.read k (doc k) = .error p) :
    l.readRecord src (.object ((ks ++ k :: js).map fun k => (name k, doc k)) .closed)
      = .error p := by
  obtain ⟨hks, -, hne⟩ := List.nodup_append.mp hnd
  obtain ⟨c, hc, hval⟩ := readFields_map hl hname hks hread (fun _ => none) fun _ _ => rfl
  have hnew : c k = none := by
    rw [hval, if_neg]
    exact fun hmem => hne k hmem k List.mem_cons_self rfl
  have hfail : l.readFields c ((k :: js).map fun k => (name k, doc k)) = .error p := by
    rw [List.map_cons, readFields, hname k]
    simp only [ofForm_ok, key?_label hl, hnew, hk, bind, Except.bind, Option.isSome_none,
      Bool.false_eq_true, if_false]
  rw [readRecord, List.map_append, readFields_append, hc]
  show (do
    let c ← l.readFields c ((k :: js).map fun k => (name k, doc k))
    ofForm Ending.closed.check
    l.complete? c : Except Problem ((k : κ) → φ k)) = _
  rw [hfail]
  rfl

/-- a record is read from all its fields, in the order of declaration -/
theorem readRecord_docBy (hl : ∀ j k, l.label j = l.label k → j = k) (hnd : l.keys.Nodup)
    (src : Source) {raw : String → RawText} (h : Faithful raw) (value : κ → Value)
    {f : (k : κ) → φ k} (hread : ∀ k, l.read k ((value k).docBy raw) = .ok (f k)) :
    l.readRecord src ((Value.object (l.keys.map fun k => (l.label k, value k))).docBy raw)
      = .ok f := by
  rw [Value.docBy_object_map]
  apply readRecord_object hl src (fun k => h (l.label k)) hnd
  · intro k _
    exact hread k
  · intro k hk
    exact absurd (l.mem_keys k) hk

/-- a record is read from all its fields when they have been sorted, at every depth -/
theorem readRecord_sorted (hl : ∀ j k, l.label j = l.label k → j = k) (hnd : l.keys.Nodup)
    (src : Source) {raw : String → RawText} (h : Faithful raw) (value : κ → Value)
    {f : (k : κ) → φ k} (hread : ∀ k, l.read k ((value k).sorted.docBy raw) = .ok (f k)) :
    l.readRecord src ((Value.object (l.keys.map fun k => (l.label k, value k))).sorted.docBy raw)
      = .ok f := by
  obtain ⟨js, hperm, hjs⟩ := Value.exists_perm_sortFields hl (fun k => (value k).sorted) hnd
  have hdoc : (Value.object (l.keys.map fun k => (l.label k, value k))).sorted.docBy raw
      = .object (js.map fun k => (raw (l.label k), (value k).sorted.docBy raw)) .closed := by
    rw [Value.sorted, Value.sortedValues_eq_map, List.map_map]
    show (Value.object (Value.sortFields
      (l.keys.map fun k => (l.label k, (value k).sorted)))).docBy raw = _
    rw [hjs, Value.docBy_object_map]
  rw [hdoc]
  apply readRecord_object hl src (fun k => h (l.label k)) (hperm.nodup_iff.mpr hnd)
  · intro k _
    exact hread k
  · intro k hk
    exact absurd (hperm.mem_iff.mpr (l.mem_keys k)) hk

end Layout

end ChunkLedger.Json
