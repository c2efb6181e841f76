import Std.Data.ExtTreeMap
import ChunkLedger.Bytes
import ChunkLedger.Disk.Path

/-!
# A disk

Files and folders, each at a location: the names on the way from the root.  The root is always a
folder, and whatever there is is in a folder (`FileTree`).  There is a current folder, from which
paths are followed that do not begin at the root.  Names and paths have a largest length, in bytes;
a name that is too long is refused where it would be looked up.

Changes of the disk are single steps (`Disk.Step`); a list of steps is carried out up to the first
that fails (`Disk.run`), and what was done before stays done.
-/

namespace ChunkLedger

/-- the names on the way from the root -/
abbrev Location := List String

/-- locations by their depth, then by their names -/
def Location.order (l m : Location) : Ordering :=
  (compare l.length m.length).then (compare l m)

instance : Std.TransCmp Location.order :=
  inferInstanceAs (Std.TransCmp (compareLex (compareOn List.length) compare))

instance : Std.LawfulEqCmp Location.order where
  eq_of_compare h := Std.LawfulEqCmp.eq_of_compare (Ordering.then_eq_eq.1 h).2

inductive Entry where
  | file (content : Bytes)
  | folder
deriving DecidableEq

/-! ## files and folders -/

/-- Files and folders by their locations.  Each of them is in a folder. -/
structure FileTree where
  entries : Std.ExtTreeMap Location Entry Location.order
  inFolder : ∀ (l : Location) (n : String) (e : Entry), entries[l ++ [n]]? = some e →
    l = [] ∨ entries[l]? = some .folder

namespace FileTree

/-- only the root -/
instance : EmptyCollection FileTree := ⟨⟨{}, by simp⟩⟩

def get? (t : FileTree) (l : Location) : Option Entry := if l = [] then some .folder else t.entries[l]?

@[simp] theorem get?_root (t : FileTree) : t.get? [] = some .folder := rfl

theorem get?_of_ne_root (t : FileTree) {l : Location} (h : l ≠ []) : t.get? l = t.entries[l]? :=
  if_neg h

/-- what is there is in a folder -/
theorem get?_folder {t : FileTree} {l : Location} {n : String} {e : Entry}
    (h : t.get? (l ++ [n]) = some e) : t.get? l = some .folder := by
  rw [t.get?_of_ne_root (by simp)] at h
  by_cases hroot : l = []
  · rw [hroot, get?_root]
  · rw [t.get?_of_ne_root hroot]
    exact (t.inFolder l n e h).resolve_left hroot

/-- Something can be put at the location: there is a folder for it, and it does not take the place
of one. -/
def Takes (t : FileTree) (l : Location) : Prop :=
  t.get? l.dropLast = some .folder ∧ t.get? l ≠ some .folder

instance (t : FileTree) (l : Location) : Decidable (t.Takes l) :=
  inferInstanceAs (Decidable (_ ∧ _))

theorem Takes.ne_root {t : FileTree} {l : Location} (h : t.Takes l) : l ≠ [] := by
  rintro rfl
  exact h.2 rfl

/-- no folder is lost by putting something where it can be -/
theorem Takes.folder {t : FileTree} {l m : Location} (h : t.Takes l) (e : Entry)
    (hm : t.get? m = some .folder) : m = [] ∨ (t.entries.insert l e)[m]? = some .folder := by
  by_cases hroot : m = []
  · exact .inl hroot
  · have hne : l ≠ m := by
      rintro rfl
      exact h.2 hm
    rw [t.get?_of_ne_root hroot] at hm
    exact .inr (by simpa [Std.ExtTreeMap.getElem?_insert, hne] using hm)

def put (t : FileTree) (l : Location) (e : Entry) (h : t.Takes l) : FileTree where
  entries := t.entries.insert l e
  inFolder m n e' hm := by
    refine h.folder e ?_
    by_cases hl : l = m ++ [n]
    · obtain rfl : l.dropLast = m := by rw [hl, List.dropLast_concat]
      exact h.1
    · rw [Std.ExtTreeMap.getElem?_insert, if_neg (mt Std.LawfulEqCmp.eq_of_compare hl)] at hm
      exact get?_folder ((t.get?_of_ne_root (by simp)).trans hm)

def erase (t : FileTree) (l : Location) (h : t.get? l ≠ some .folder) : FileTree where
  entries := t.entries.erase l
  inFolder m n e hm := by
    have hm' : t.entries[m ++ [n]]? = some e := by
      rw [Std.ExtTreeMap.getElem?_erase] at hm
      split at hm
      · cases hm
      · exact hm
    refine (t.inFolder m n e hm').imp_right fun hfolder => ?_
    have hne : l ≠ m := by
      rintro rfl
      exact h (get?_folder ((t.get?_of_ne_root (by simp)).trans hm'))
    simpa [Std.ExtTreeMap.getElem?_erase, hne] using hfolder

end FileTree

structure Disk where
  current : Location
  tree : FileTree

namespace Disk

inductive Fault where
  | notFound
  | isFolder
  | notFolder
  | exists
  /-- a name or a path is longer than the disk takes -/
  | tooLong
  /-- what is to be replaced is not named: its path ends in `.` or `..`, or is the root -/
  | busy
  /-- a path holds the character zero, which no name does -/
  | zeroCharacter
  /-- anything else that a real disk may refuse, in its own words -/
  | other (message : String)
deriving DecidableEq, Repr

def Fault.message : Fault → String
  | .notFound => "No such file or directory (os error 2)"
  | .isFolder => "Is a directory (os error 21)"
  | .notFolder => "Not a directory (os error 20)"
  | .exists => "File exists (os error 17)"
  | .tooLong => "File name too long (os error 36)"
  | .busy => "Device or resource busy (os error 16)"
  | .zeroCharacter => "file name contained an unexpected NUL byte"
  | .other m => m

/-! ## locations -/

def get? (d : Disk) (l : Location) : Option Entry := d.tree.get? l

/-- without the file at a location; a folder stays -/
def erase (d : Disk) (l : Location) : Disk :=
  if h : d.get? l ≠ some .folder then { d with tree := d.tree.erase l h } else d

/-- with something at a location where it can be -/
def put (d : Disk) (l : Location) (e : Entry) : Disk :=
  if h : d.tree.Takes l then { d with tree := d.tree.put l e h } else d

/-- everything below a location, with the names from there on -/
def below (d : Disk) (l : Location) : List (Location × Entry) :=
  d.tree.entries.toList.filterMap fun e =>
    if l.isPrefixOf e.1 ∧ e.1 ≠ l then some (e.1.drop l.length, e.2) else none

/-! ## following paths -/

def maxNameLength : Nat := 255

def maxPathLength : Nat := 4095

/-- what has the name `n` in the folder at `l` -/
def find (d : Disk) (l : Location) (n : String) : Except Fault (Option Entry) :=
  if d.get? l ≠ some .folder then .error .notFound
  else if maxNameLength < n.utf8ByteSize then .error .tooLong
  else .ok (d.get? (l ++ [n]))

/-- the folder reached from `l` along some names -/
def walk (d : Disk) : (l : Location) → List String → Except Fault Location
  | l, [] => .ok l
  | l, n :: ns =>
    if n = "." then d.walk l ns
    else if n = ".." then d.walk l.dropLast ns
    else
      match d.find l n with
      | .ok (some .folder) => d.walk (l ++ [n]) ns
      | .ok (some (.file _)) => .error .notFolder
      | .ok none => .error .notFound
      | .error f => .error f

/-- Where a path leads: a name in a folder, or, without a name, that folder itself. -/
structure Place where
  folder : Location
  name : Option String
deriving DecidableEq

/-- the folder from which a path is followed, if the path can be followed at all -/
def start (d : Disk) (p : Path) : Except Fault Location :=
  if '\x00' ∈ p.text.toList then .error .zeroCharacter
  else if maxPathLength < p.text.utf8ByteSize then .error .tooLong
  else .ok (if p.isAbsolute then [] else d.current)

def place (d : Disk) (p : Path) : Except Fault Place := do
  let l ← d.start p
  match p.steps.getLast? with
  | none => if p.isAbsolute then return ⟨l, none⟩ else throw .notFound
  | some n =>
    if n = "." ∨ n = ".." then return ⟨← d.walk l p.steps, none⟩
    else return ⟨← d.walk l p.steps.dropLast, some n⟩

/-! ## looking -/

/-- what is at a place that the path `p` leads to, and its location -/
def entryAt (d : Disk) (p : Path) : Place → Except Fault (Location × Entry)
  | ⟨l, none⟩ => .ok (l, .folder)
  | ⟨l, some n⟩ =>
    match d.find l n with
    | .error f => .error f
    | .ok none => .error .notFound
    | .ok (some .folder) => .ok (l ++ [n], .folder)
    | .ok (some (.file c)) =>
      if p.endsWithSlash then .error .notFolder else .ok (l ++ [n], .file c)

/-- what is at the end of a path, and its location -/
def look (d : Disk) (p : Path) : Except Fault (Location × Entry) :=
  match d.place p with
  | .error f => .error f
  | .ok spot => d.entryAt p spot

def has (d : Disk) (p : Path) : Bool := (d.look p).isOk

def read (d : Disk) (p : Path) : Except Fault Bytes :=
  match d.look p with
  | .error f => .error f
  | .ok (_, .folder) => .error .isFolder
  | .ok (_, .file c) => .ok c

/-! ## changing -/

def create (d : Disk) (p : Path) : Except Fault Disk := do
  let spot ← d.place p
  match spot.name with
  | none => throw .isFolder
  | some n =>
    if p.endsWithSlash then throw .isFolder
    match ← d.find spot.folder n with
    | some .folder => throw .isFolder
    | _ => return d.put (spot.folder ++ [n]) (.file [])

def append (d : Disk) (p : Path) (bs : Bytes) : Except Fault Disk :=
  match d.look p with
  | .error f => .error f
  | .ok (_, .folder) => .error .isFolder
  | .ok (l, .file c) => .ok (d.put l (.file (c ++ bs)))

/-- makes the folders along some names from `l` on, as far as they are missing; `made` says that one
was missing already.  From then on each folder is asked for by itself, so a file where it should be
exists already; before, it is in the way of the whole path, unless the path ends there. -/
def makeFoldersFrom (d : Disk) :
    (made : Bool) → (l : Location) → List String → Disk × Except Fault Unit
  | _, _, [] => (d, .ok ())
  | made, l, n :: ns =>
    if n = "." then d.makeFoldersFrom made l ns
    else if n = ".." then d.makeFoldersFrom made l.dropLast ns
    else
      match d.find l n with
      | .ok (some .folder) => d.makeFoldersFrom made (l ++ [n]) ns
      | .ok (some (.file _)) => (d, .error (if made ∨ ns = [] then .exists else .notFolder))
      | .ok none => (d.put (l ++ [n]) .folder).makeFoldersFrom true (l ++ [n]) ns
      | .error f => (d, .error f)

def makeFolders (d : Disk) (p : Path) : Disk × Except Fault Unit :=
  match d.start p with
  | .ok l => d.makeFoldersFrom false l p.steps
  | .error f => (d, .error f)

def rename (d : Disk) (source target : Path) : Except Fault Disk := do
  let here ← d.place source
  let there ← d.place target
  match here.name, there.name with
  | some m, some n =>
    let c ← d.read source
    let present ← d.find there.folder n
    if target.endsWithSlash then throw .notFolder
    if present = some .folder then throw .isFolder
    return (d.erase (here.folder ++ [m])).put (there.folder ++ [n]) (.file c)
  | _, _ => throw .busy

/-! ## steps -/

inductive Step where
  | makeFolders (p : Path)
  | create (p : Path)
  | append (p : Path) (bs : Bytes)
  /-- makes sure that what was written is kept -/
  | sync (p : Path)
  /-- puts a file in the place of another, all at once -/
  | rename (source target : Path)

/-- the disk as it is unless the change succeeds -/
def orUnchanged (d : Disk) : Except Fault Disk → Disk × Except Fault Unit
  | .ok d => (d, .ok ())
  | .error f => (d, .error f)

def step (d : Disk) : Step → Disk × Except Fault Unit
  | .makeFolders p => d.makeFolders p
  | .create p => d.orUnchanged (d.create p)
  | .append p bs => d.orUnchanged (d.append p bs)
  | .sync _ => (d, .ok ())
  | .rename source target => d.orUnchanged (d.rename source target)

/-- carries out steps one by one, up to the first that fails -/
def runEach (d : Disk) : List Step → Disk × Except Fault Unit
  | [] => (d, .ok ())
  | s :: ss =>
    match d.step s with
    | (d, .ok ()) => d.runEach ss
    | r => r

/-- a step before others; what both it and the first of them write at the end of a file is written
at once -/
def Step.before : Step → List Step → List Step
  | .append p bs, .append q cs :: ss =>
    if p = q then .append p (bs ++ cs) :: ss else .append p bs :: .append q cs :: ss
  | s, ss => s :: ss

/-- carries out steps up to the first that fails; pieces written to one file in a row are put
together first, which makes no difference (`run_eq_runEach` in `Disk.Writing`) -/
def run (d : Disk) (steps : List Step) : Disk × Except Fault Unit :=
  d.runEach (steps.foldr Step.before [])

/-- what a step leaves that is broken off: as many of the folders as there are in a part of the path,
or as many bytes of the piece -/
def begin (d : Disk) (part : Nat) : Step → Disk
  | .makeFolders p =>
    match d.start p with
    | .ok l => (d.makeFoldersFrom false l (p.steps.take part)).1
    | .error _ => d
  | .append p bs =>
    match d.append p (bs.take part) with
    | .ok d' => d'
    | .error _ => d
  | _ => d

/-- Where a disk refuses to go on: after some steps and a part of the next one. -/
structure Refusal where
  steps : Nat
  part : Nat
  fault : Fault

/-- carries out steps up to the first that fails, or that the disk refuses to carry out -/
def runUntil (d : Disk) (refusal : Option Refusal) (steps : List Step) :
    Disk × Except Fault Unit :=
  match refusal with
  | none => d.run steps
  | some r =>
    match d.run (steps.take r.steps) with
    | (d, .ok ()) =>
      match steps.drop r.steps with
      | [] => (d, .ok ())
      | s :: _ => (d.begin r.part s, .error r.fault)
    | failed => failed

@[simp] theorem run_nil (d : Disk) : d.run [] = (d, .ok ()) := rfl

@[simp] theorem get?_root (d : Disk) : d.get? [] = some .folder := rfl

@[simp] theorem current_put (d : Disk) (l : Location) (e : Entry) :
    (d.put l e).current = d.current := by
  unfold put
  split <;> rfl

@[simp] theorem current_erase (d : Disk) (l : Location) : (d.erase l).current = d.current := by
  unfold erase
  split <;> rfl

theorem get?_put {d : Disk} {l : Location} (h : d.tree.Takes l) (m : Location) (e : Entry) :
    (d.put l e).get? m = if l = m then some e else d.get? m := by
  by_cases hroot : m = []
  · rw [hroot, get?_root, get?_root, if_neg h.ne_root]
  · simp [get?, put, h, FileTree.get?, FileTree.put, hroot, Std.ExtTreeMap.getElem?_insert]

theorem get?_erase {d : Disk} {l : Location} (h : d.get? l ≠ some .folder) (m : Location) :
    (d.erase l).get? m = if l = m then none else d.get? m := by
  by_cases hroot : m = []
  · have hl : l ≠ [] := by
      rintro rfl
      exact h rfl
    rw [hroot, get?_root, get?_root, if_neg hl]
  · rw [erase, dif_pos h]
    simp [get?, FileTree.get?, FileTree.erase, hroot, Std.ExtTreeMap.getElem?_erase]

end Disk

end ChunkLedger
