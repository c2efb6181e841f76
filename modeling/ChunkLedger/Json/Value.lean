import ChunkLedger.Json.Number

/-!
# JSON values

A value is a tree; an object is a list of fields in the order in which they are written.  Where the
order carries no meaning (the payload of a message) fields are sorted by name and a repeated name
keeps its last value: `Value.sorted`.
-/

namespace ChunkLedger.Json

inductive Value where
  | null
  | bool (b : Bool)
  | number (n : Number)
  | text (s : String)
  | array (items : List Value)
  | object (fields : List (String × Value))

namespace Value

def ofNat64 (n : UInt64) : Value := .number (.natural n)

/-- puts a field into fields sorted by name, in place of one of the same name -/
def insertField (name : String) (v : Value) : List (String × Value) → List (String × Value)
  | [] => [(name, v)]
  | (n, w) :: rest =>
    if name = n then (name, v) :: rest
    else if name < n then (name, v) :: (n, w) :: rest
    else (n, w) :: insertField name v rest

/-- the fields sorted by name; of fields of one name the last stays -/
def sortFields (fields : List (String × Value)) : List (String × Value) :=
  fields.foldl (fun acc f => insertField f.1 f.2 acc) []

/-! ## sorting at every depth -/

mutual

def sorted : Value → Value
  | .array items => .array (sortedItems items)
  | .object fields => .object (sortFields (sortedValues fields))
  | v => v

def sortedItems : List Value → List Value
  | [] => []
  | v :: vs => v.sorted :: sortedItems vs

def sortedValues : List (String × Value) → List (String × Value)
  | [] => []
  | (n, v) :: fs => (n, v.sorted) :: sortedValues fs

end

/-! ## depth -/

mutual

def depth : Value → Nat
  | .array items => itemsDepth items + 1
  | .object fields => fieldsDepth fields + 1
  | _ => 0

def itemsDepth : List Value → Nat
  | [] => 0
  | v :: vs => max v.depth (itemsDepth vs)

def fieldsDepth : List (String × Value) → Nat
  | [] => 0
  | (_, v) :: fs => max v.depth (fieldsDepth fs)

end

@[simp] theorem sortedItems_nil : sortedItems [] = [] := by simp [sortedItems]
@[simp] theorem sortedItems_cons (v : Value) (vs : List Value) :
    sortedItems (v :: vs) = v.sorted :: sortedItems vs := by simp [sortedItems]
@[simp] theorem sortedValues_nil : sortedValues [] = [] := by simp [sortedValues]
@[simp] theorem sortedValues_cons (f : String × Value) (fs : List (String × Value)) :
    sortedValues (f :: fs) = (f.1, f.2.sorted) :: sortedValues fs := by
  cases f; simp [sortedValues]

theorem sortedItems_eq_map (vs : List Value) : sortedItems vs = vs.map sorted := by
  induction vs with
  | nil => simp
  | cons v vs ih => rw [sortedItems_cons, ih, List.map_cons]

theorem sortedValues_eq_map (fs : List (String × Value)) :
    sortedValues fs = fs.map fun f => (f.1, f.2.sorted) := by
  induction fs with
  | nil => simp
  | cons f fs ih => rw [sortedValues_cons, ih, List.map_cons]

end Value

end ChunkLedger.Json
