/-!
# Paths

A path is a text of names between slashes.  Empty names and `.` do not count; `..` stays, for it
means the folder above only once the path is followed (`Disk`).

A path names a file unless it is empty, the root, or ends in `..`.  The path of the folder it is in
(`parent?`) is a beginning of its text: what does not count is left out only at the end, for a disk
takes paths of a largest length as they are written.
-/

namespace ChunkLedger

structure Path where
  text : String
deriving DecidableEq, Repr

namespace Path

/-- the pieces between slashes, first piece first; there is always one -/
def splitSlashes : List Char → List (List Char)
  | [] => [[]]
  | c :: cs =>
    if c = '/' then [] :: splitSlashes cs
    else
      match splitSlashes cs with
      | [] => [[c]]
      | p :: ps => (c :: p) :: ps

def pieces (p : Path) : List String := (splitSlashes p.text.toList).map String.ofList

/-- the names along the path, without empty ones -/
def steps (p : Path) : List String := p.pieces.filter (· ≠ "")

/-- the names along the path, without those that stay where they are -/
def names (p : Path) : List String := p.steps.filter (· ≠ ".")

def isAbsolute (p : Path) : Bool := p.text.toList.head? = some '/'

/-- the path ends with a slash, which only a folder may have -/
def endsWithSlash (p : Path) : Bool := p.text.toList.getLast? = some '/'

/-- the path with these texts between its slashes; a single empty text is the root -/
def ofPieces (first : String) (rest : List String) : Path :=
  if first = "" ∧ rest = [] then ⟨"/"⟩ else ⟨"/".intercalate (first :: rest)⟩

/-- a text between slashes that leads nowhere else -/
def isIdle (piece : String) : Bool := piece = "" ∨ piece = "."

/-- the last name, if it is the name of a file -/
def fileName? (p : Path) : Option String :=
  match p.names.getLast? with
  | some n => if n = ".." then none else some n
  | none => none

/-- the path without its last name; none if nothing would be left -/
def parent? (p : Path) : Option Path :=
  match p.pieces with
  | [] => none
  | first :: rest =>
    match rest.reverse.dropWhile isIdle with
    | [] => none
    | _ :: before => some (ofPieces first (before.dropWhile isIdle).reverse)

/-- what has the name `name` in the folder `p` -/
def child (p : Path) (name : String) : Path :=
  if p.text = "" ∨ p.endsWithSlash then ⟨p.text ++ name⟩ else ⟨p.text ++ "/" ++ name⟩

def withFileName (p : Path) (name : String) : Path :=
  match p.parent? with
  | some folder => folder.child name
  | none => ⟨name⟩

/-- the file beside `p` that is written before it takes the place of `p` -/
def draft? (p : Path) : Option Path := p.fileName?.map fun n => p.withFileName (n ++ ".tmp")

theorem splitSlashes_nil : splitSlashes [] = [[]] := rfl

theorem splitSlashes_slash (cs : List Char) :
    splitSlashes ('/' :: cs) = [] :: splitSlashes cs := rfl

theorem splitSlashes_ne_nil (cs : List Char) : splitSlashes cs ≠ [] := by
  cases cs with
  | nil => simp [splitSlashes]
  | cons c cs =>
    rw [splitSlashes]
    split
    · simp
    · split <;> simp

/-- a slash parts what is before it from what is after it -/
theorem splitSlashes_append_slash (cs ds : List Char) :
    splitSlashes (cs ++ '/' :: ds) = splitSlashes cs ++ splitSlashes ds := by
  induction cs with
  | nil => rfl
  | cons c cs ih =>
    rw [List.cons_append, splitSlashes, splitSlashes, ih]
    by_cases h : c = '/'
    · simp [h]
    · obtain ⟨p, ps, e⟩ := List.exists_cons_of_ne_nil (splitSlashes_ne_nil cs)
      simp [h, e]

/-- a name is a single piece -/
theorem splitSlashes_of_not_mem {cs : List Char} (h : '/' ∉ cs) : splitSlashes cs = [cs] := by
  induction cs with
  | nil => rfl
  | cons c cs ih =>
    have hc : c ≠ '/' := fun e => h (by simp [e])
    have hcs : splitSlashes cs = [cs] := ih fun m => h (List.mem_cons_of_mem c m)
    simp [splitSlashes, hc, hcs]

/-- what is in a folder is reached along the names of the folder and its own -/
theorem steps_child (p : Path) {name : String} (hs : '/' ∉ name.toList) (hn : name ≠ "") :
    (p.child name).steps = p.steps ++ [name] := by
  have single : splitSlashes name.toList = [name.toList] := splitSlashes_of_not_mem hs
  by_cases he : p.text = ""
  · simp [child, steps, pieces, he, single, hn, splitSlashes_nil]
  by_cases hl : p.endsWithSlash = true
  · obtain ⟨cs, e⟩ := List.getLast?_eq_some_iff.1 (of_decide_eq_true hl)
    have parted : splitSlashes (cs ++ '/' :: name.toList) = splitSlashes cs ++ [name.toList] := by
      rw [splitSlashes_append_slash, single]
    simp [child, steps, pieces, hl, e, parted, splitSlashes_append_slash cs [], splitSlashes_nil, hn]
  · have parted : splitSlashes (p.text.toList ++ '/' :: name.toList)
        = splitSlashes p.text.toList ++ [name.toList] := by
      rw [splitSlashes_append_slash, single]
    simp [child, steps, pieces, he, hl, parted, hn]

end Path

end ChunkLedger
