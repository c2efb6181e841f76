import ChunkLedger.Json.Reader

/-!
# Records

A record is written as an object, its fields in any order and names that it does not know left
out of account, or as an array of its fields in the order of declaration.

The fields of a kind of record are the values of a type `κ`; a field `k` holds a value of `φ k`.
Fields are collected one by one (`Collected`) and a record is complete when each of them is there
or has a default (`Layout.complete?`).
-/

namespace ChunkLedger.Json

structure Layout (κ : Type) (φ : κ → Type) where
  /-- what messages call the record -/
  name : String
  keys : List κ
  mem_keys : ∀ k, k ∈ keys
  label : κ → String
  read : (k : κ) → Reader (φ k)
  /-- the value of a field that is not there -/
  absent : (k : κ) → Option (φ k)

/-- what has been read so far -/
abbrev Collected {κ : Type} (φ : κ → Type) := (k : κ) → Option (φ k)

namespace Layout

variable {κ : Type} {φ : κ → Type}

/-- `c`, with the value `v` for the field `k` -/
def put [DecidableEq κ] (c : Collected φ) (k : κ) (v : φ k) : Collected φ :=
  fun j => if h : j = k then some (h ▸ v) else c j

def key? (l : Layout κ φ) (name : String) : Option κ := l.keys.find? (l.label · = name)

def expectation (l : Layout κ φ) : String := "struct " ++ l.name

def lengthExpectation (l : Layout κ φ) : String :=
  l.expectation ++ " with " ++ toString l.keys.length ++
    (if l.keys.length = 1 then " element" else " elements")

/-- the record, once each field is there or has a default; the first that is not is missing -/
def complete? (l : Layout κ φ) (c : Collected φ) : Except Problem ((k : κ) → φ k) :=
  match h : l.keys.find? (fun k => ((c k).or (l.absent k)).isNone) with
  | some k => .error (.content (.missingField (l.label k)))
  | none => .ok fun k => ((c k).or (l.absent k)).get (by
      have := List.find?_eq_none.mp h k (l.mem_keys k)
      rwa [Bool.not_eq_true, Option.isNone_eq_false_iff] at this)

def readFields [DecidableEq κ] (l : Layout κ φ) :
    Collected φ → List (RawText × Doc) → Except Problem (Collected φ)
  | c, [] => .ok c
  | c, (t, d) :: fs => do
    let name ← ofForm t.decode
    match l.key? name with
    | none =>
      ofForm d.skip
      l.readFields c fs
    | some k =>
      if (c k).isSome then throw (.content (.duplicateField (l.label k)))
      let v ← l.read k d
      l.readFields (put c k v) fs

/-- the items for the fields `keys`, the first of which is item `i`, and the items after them -/
def readItems [DecidableEq κ] (l : Layout κ φ) (e : Ending) :
    (keys : List κ) → (i : Nat) → Collected φ → List Doc → Except Problem (Collected φ × List Doc)
  | [], _, c, ds => .ok (c, ds)
  | k :: ks, i, c, d :: ds => do
    let v ← l.read k d
    l.readItems e ks (i + 1) (put c k v) ds
  | k :: ks, i, c, [] => do
    ofForm e.check
    match l.absent k with
    | some _ => l.readItems e ks (i + 1) c []
    | none => throw (.content (.wrongLength i l.lengthExpectation))

/-- the record that a document holds, field by field -/
def readRecord [DecidableEq κ] (l : Layout κ φ) (src : Source) : Reader ((k : κ) → φ k)
  | .object fields e => do
    let c ← l.readFields (fun _ => none) fields
    ofForm e.check
    l.complete? c
  | .array items e => do
    let (c, left) ← l.readItems e l.keys 0 (fun _ => none) items
    match left, src with
    | [], _ => ofForm e.check
    | _ :: _, .text => throw (.form .malformed)
    | _ :: _, .value =>
      throw (.content (.wrongLength items.length "fewer elements in array"))
    l.complete? c
  | d => d.refuse l.expectation

theorem put_self [DecidableEq κ] (c : Collected φ) (k : κ) (v : φ k) : put c k v k = some v := by
  simp [put]

theorem put_of_ne [DecidableEq κ] (c : Collected φ) {j k : κ} (v : φ k) (h : j ≠ k) :
    put c k v j = c j := by
  simp [put, h]

end Layout

end ChunkLedger.Json
