import ChunkLedger.Proofs.Disk.Reading
import Mathlib.Data.List.TakeWhile

/-!
# Where paths lead

A path is followed name by name: `.` stays, `..` goes up and any other name goes down.  So the
location to which it leads, if it leads anywhere, is known from its names alone
(`Path.location`, `Disk.location_of_place`).

* The folder of a path is on the way to what the path leads to, and is reached from the same
  folder (`steps_of_parent?`, `isAbsolute_of_parent?`).
* The draft is beside what the path leads to (`location_draft`), and not there
  (`location_draft_ne`), for its last name is longer.
-/

namespace ChunkLedger

/-- one name further from `l` -/
def Location.move (l : Location) (n : String) : Location :=
  if n = "." then l else if n = ".." then l.dropLast else l ++ [n]

namespace Path

/-- where the path leads, followed from the current folder if it does not begin at the root -/
def location (p : Path) (current : Location) : Location :=
  p.steps.foldl Location.move (if p.isAbsolute then [] else current)

/-! ## pieces -/

theorem splitSlashes_eq_splitOn (cs : List Char) : splitSlashes cs = cs.splitOn '/' := by
  induction cs with
  | nil => rfl
  | cons c cs ih =>
    rw [splitSlashes, List.splitOn_cons_eq_if_modifyHead, ih]
    by_cases hc : c = '/'
    · rw [if_pos hc, if_pos (beq_iff_eq.mpr hc)]
    · rw [if_neg hc, if_neg (mt beq_iff_eq.mp hc)]
      obtain ⟨p, ps, h⟩ := List.exists_cons_of_ne_nil (List.splitOn_ne_nil '/' cs)
      rw [h, List.modifyHead_cons]

theorem not_mem_of_mem_splitSlashes {cs p : List Char} (h : p ∈ splitSlashes cs) : '/' ∉ p := by
  induction cs generalizing p with
  | nil =>
    rw [splitSlashes_nil, List.mem_singleton] at h
    rw [h]
    exact List.not_mem_nil
  | cons c cs ih =>
    rw [splitSlashes] at h
    by_cases hc : c = '/'
    · rw [if_pos hc, List.mem_cons] at h
      rcases h with rfl | h
      · exact List.not_mem_nil
      · exact ih h
    · rw [if_neg hc] at h
      obtain ⟨q, qs, hq⟩ := List.exists_cons_of_ne_nil (splitSlashes_ne_nil cs)
      have hmem : ∀ r ∈ q :: qs, '/' ∉ r := fun r hr => ih (hq ▸ hr)
      rw [hq] at h
      rcases List.mem_cons.mp h with rfl | h
      · rw [List.mem_cons, not_or]
        exact ⟨Ne.symm hc, hmem q List.mem_cons_self⟩
      · exact hmem p (List.mem_cons_of_mem q h)

/-- no piece of a path has a slash -/
theorem not_mem_of_mem_pieces {p : Path} {s : String} (h : s ∈ p.pieces) : '/' ∉ s.toList := by
  obtain ⟨cs, hcs, rfl⟩ := List.mem_map.mp h
  rw [String.toList_ofList]
  exact not_mem_of_mem_splitSlashes hcs

/-- texts without a slash are the pieces of what is made by putting slashes between them -/
theorem pieces_intercalate {ps : List String} (h : ∀ s ∈ ps, '/' ∉ s.toList) (hne : ps ≠ []) :
    pieces ⟨"/".intercalate ps⟩ = ps := by
  have hslash : ("/" : String).toList = ['/'] := rfl
  have hsplit : (List.intercalate ['/'] (ps.map String.toList)).splitOn '/'
      = ps.map String.toList := by
    apply List.splitOn_intercalate
    · intro cs hcs
      obtain ⟨s, hs, rfl⟩ := List.mem_map.mp hcs
      exact h s hs
    · exact mt List.map_eq_nil_iff.mp hne
  rw [pieces, String.toList_intercalate, hslash, splitSlashes_eq_splitOn, hsplit, List.map_map]
  exact (List.map_congr_left fun s _ => String.ofList_toList).trans (List.map_id ps)

/-- a path is its pieces with slashes between them -/
theorem intercalate_pieces (p : Path) : "/".intercalate p.pieces = p.text := by
  have hslash : ("/" : String).toList = ['/'] := rfl
  have hmap : p.pieces.map String.toList = p.text.toList.splitOn '/' := by
    rw [pieces, List.map_map, splitSlashes_eq_splitOn]
    exact (List.map_congr_left fun cs _ => String.toList_ofList).trans (List.map_id _)
  apply String.toList_injective
  rw [String.toList_intercalate, hslash, hmap, List.intercalate_splitOn]

section
variable {first : String} {rest : List String}

/-- a path of several pieces is what its pieces make -/
theorem eq_ofPieces {p : Path} (h : p.pieces = first :: rest) (hrest : rest ≠ []) :
    p = ofPieces first rest := by
  rw [ofPieces, if_neg fun hroot => hrest hroot.2, ← h, intercalate_pieces]

theorem steps_ofPieces (h : ∀ s ∈ first :: rest, '/' ∉ s.toList) :
    (ofPieces first rest).steps = (first :: rest).filter (· ≠ "") := by
  rw [ofPieces]
  by_cases hroot : first = "" ∧ rest = []
  · rw [if_pos hroot, hroot.1, hroot.2]
    rfl
  · rw [if_neg hroot, steps, pieces_intercalate h (List.cons_ne_nil _ _)]

/-- what begins with an empty piece begins at the root -/
theorem isAbsolute_ofPieces (h : '/' ∉ first.toList) :
    (ofPieces first rest).isAbsolute = decide (first = "") := by
  rw [ofPieces]
  by_cases hroot : first = "" ∧ rest = []
  · rw [if_pos hroot, hroot.1]
    rfl
  · have htext : (("/" : String).intercalate (first :: rest)).toList.head? = some '/'
        ↔ first = "" := by
      rw [String.toList_intercalate, List.map_cons]
      cases hf : first.toList with
      | nil =>
        have hfirst : first = "" := String.toList_eq_nil_iff.mp hf
        have hrest : rest.map String.toList ≠ [] :=
          fun hnil => hroot ⟨hfirst, List.map_eq_nil_iff.mp hnil⟩
        rw [List.intercalate_cons_of_ne_nil hrest]
        exact iff_of_true rfl hfirst
      | cons c cs =>
        rw [hf] at h
        have hc : c ≠ '/' := fun hc => h (hc ▸ List.mem_cons_self)
        have hfirst : first ≠ "" := fun hfirst => by simp [hfirst] at hf
        rw [List.intercalate_cons_cons_left, List.head?_cons]
        exact iff_of_false (fun h => hc (Option.some.inj h)) hfirst
    rw [if_neg hroot, isAbsolute]
    exact decide_eq_decide.mpr htext

end

/-! ## the folder of a path -/

/-- a text between slashes that is no name stays where it is -/
theorem eq_dot_of_isIdle {s : String} (h : isIdle s = true) (hs : s ≠ "") : s = "." :=
  (of_decide_eq_true h).resolve_left hs

theorem ne_of_not_isIdle {s : String} (h : isIdle s = false) : s ≠ "" ∧ s ≠ "." :=
  not_or.mp (of_decide_eq_false h)

/-- the folder of a path, by its pieces: a beginning of those of the path, without the one name that
follows -/
theorem ofPieces_of_parent? {p q : Path} (h : p.parent? = some q) :
    ∃ first before n dots dots', p.pieces = first :: (before ++ (dots ++ n :: dots')) ∧
      q = ofPieces first before ∧ isIdle n = false ∧ ∀ s ∈ dots ++ dots', isIdle s = true := by
  unfold parent? at h
  cases hp : p.pieces with
  | nil => rw [hp] at h; cases h
  | cons first rest =>
    rw [hp] at h
    simp only at h
    cases hname : rest.reverse.dropWhile isIdle with
    | nil => rw [hname] at h; cases h
    | cons n others =>
      rw [hname] at h
      have hn : isIdle n = false := by
        have hhead := List.head?_dropWhile_not isIdle rest.reverse
        rw [hname] at hhead
        exact hhead
      have hback : rest.reverse = rest.reverse.takeWhile isIdle ++ n :: (others.takeWhile isIdle
          ++ others.dropWhile isIdle) := by
        rw [List.takeWhile_append_dropWhile, ← hname, List.takeWhile_append_dropWhile]
      have hrest := congrArg List.reverse hback
      rw [List.reverse_reverse, List.reverse_append, List.reverse_cons, List.reverse_append,
        List.append_assoc, List.append_assoc, List.singleton_append] at hrest
      refine ⟨first, _, n, _, _, congrArg (first :: ·) hrest, (Option.some.inj h).symm, hn, ?_⟩
      intro s hs
      rcases List.mem_append.mp hs with hs | hs
      · exact List.mem_takeWhile_imp (List.mem_reverse.mp hs)
      · exact List.mem_takeWhile_imp (List.mem_reverse.mp hs)

/-- a path goes to its folder first, and then on by one name -/
theorem steps_of_parent? {p q : Path} (h : p.parent? = some q) :
    ∃ n dots dots', p.steps = q.steps ++ (dots ++ n :: dots') ∧ n ≠ "." ∧
      ∀ s ∈ dots ++ dots', s = "." := by
  obtain ⟨first, before, n, dots, dots', hp, rfl, hn, hdots⟩ := ofPieces_of_parent? h
  have hslash : ∀ s ∈ first :: before, '/' ∉ s.toList := by
    intro s hs
    apply not_mem_of_mem_pieces (p := p)
    rw [hp, ← List.cons_append]
    exact List.mem_append_left _ hs
  refine ⟨n, dots.filter (· ≠ ""), dots'.filter (· ≠ ""), ?_, (ne_of_not_isIdle hn).2, ?_⟩
  · have hname : (n :: dots').filter (· ≠ "") = n :: dots'.filter (· ≠ "") :=
      List.filter_cons_of_pos (by simpa using (ne_of_not_isIdle hn).1)
    rw [steps_ofPieces hslash, steps, hp, ← List.cons_append, List.filter_append, List.filter_append,
      hname]
  · intro s hs
    rw [← List.filter_append, List.mem_filter] at hs
    exact eq_dot_of_isIdle (hdots s hs.1) (by simpa using hs.2)

theorem names_of_parent? {p q : Path} (h : p.parent? = some q) : ∃ n, p.names = q.names ++ [n] := by
  obtain ⟨n, dots, dots', hsteps, hn, hdots⟩ := steps_of_parent? h
  have hnone {ds : List String} (hds : ∀ s ∈ ds, s = ".") : ds.filter (· ≠ ".") = [] := by
    rw [List.filter_eq_nil_iff]
    intro s hs
    simpa using hds s hs
  refine ⟨n, ?_⟩
  rw [names, hsteps, List.filter_append, List.filter_append,
    List.filter_cons_of_pos (by simpa using hn),
    hnone fun s hs => hdots s (List.mem_append_left dots' hs),
    hnone fun s hs => hdots s (List.mem_append_right dots hs)]
  rfl

theorem isAbsolute_of_parent? {p q : Path} (h : p.parent? = some q) :
    q.isAbsolute = p.isAbsolute := by
  obtain ⟨first, before, n, dots, dots', hp, rfl, -, -⟩ := ofPieces_of_parent? h
  have hslash : '/' ∉ first.toList := by
    apply not_mem_of_mem_pieces (p := p)
    rw [hp]
    exact List.mem_cons_self
  have hrest : before ++ (dots ++ n :: dots') ≠ [] := by simp
  rw [eq_ofPieces hp hrest, isAbsolute_ofPieces hslash, isAbsolute_ofPieces hslash]

/-- a path that begins at the root begins with an empty piece -/
theorem pieces_of_isAbsolute {p : Path} (h : p.isAbsolute = true) : ∃ rest, p.pieces = "" :: rest := by
  obtain ⟨cs, hcs⟩ := List.head?_eq_some_iff.mp (of_decide_eq_true h)
  refine ⟨(splitSlashes cs).map String.ofList, ?_⟩
  rw [pieces, hcs, splitSlashes_slash, List.map_cons]

/-- a path with a name, but without a folder, is that name, followed from the current folder -/
theorem names_of_parent?_eq_none {p : Path} (h : p.parent? = none) {n : String}
    (hn : n ∈ p.names) : p.names = [n] ∧ p.isAbsolute = false := by
  unfold parent? at h
  cases hp : p.pieces with
  | nil =>
    rw [names, steps, hp] at hn
    cases hn
  | cons first rest =>
    rw [hp] at h
    simp only at h
    split at h
    · rename_i hnil
      have hrest : ∀ s ∈ rest, isIdle s = true := by
        intro s hs
        exact List.dropWhile_eq_nil_iff.mp hnil s (List.mem_reverse.mpr hs)
      have hfilter : p.names = (first :: rest).filter fun s => !isIdle s := by
        rw [names, steps, hp, List.filter_filter]
        congr 1
        funext s
        simp [isIdle, Bool.and_comm]
      have hnone : rest.filter (fun s => !isIdle s) = [] := by
        rw [List.filter_eq_nil_iff]
        intro s hs
        simp [hrest s hs]
      rw [hfilter, List.filter_cons, hnone] at hn ⊢
      cases hidle : isIdle first with
      | true =>
        rw [hidle] at hn
        cases hn
      | false =>
        rw [hidle] at hn
        obtain rfl : n = first := List.mem_singleton.mp hn
        refine ⟨rfl, ?_⟩
        rw [Bool.eq_false_iff]
        intro habs
        obtain ⟨others, hothers⟩ := pieces_of_isAbsolute habs
        rw [hp] at hothers
        exact (ne_of_not_isIdle hidle).1 (List.cons.inj hothers).1
    · cases h

/-! ## the draft beside a path -/

theorem fileName?_eq_some_iff {p : Path} {n : String} :
    p.fileName? = some n ↔ p.names.getLast? = some n ∧ n ≠ ".." := by
  unfold fileName?
  cases p.names.getLast? with
  | none => exact iff_of_false nofun fun h => nomatch h.1
  | some m =>
    by_cases hup : m = ".."
    · simp only [if_pos hup]
      refine iff_of_false nofun ?_
      rintro ⟨h, hn⟩
      exact hn (Option.some.inj h ▸ hup)
    · simp only [if_neg hup]
      exact ⟨fun h => ⟨h, Option.some.inj h ▸ hup⟩, fun h => h.1⟩

/-- names that stay where they are can be left out -/
theorem location_eq_foldl_names (p : Path) (current : Location) :
    p.location current = p.names.foldl Location.move (if p.isAbsolute then [] else current) := by
  rw [location, names]
  generalize (if p.isAbsolute then [] else current) = l
  induction p.steps generalizing l with
  | nil => rfl
  | cons n ns ih =>
    by_cases hdot : n = "."
    · rw [List.filter_cons_of_neg (by simpa using hdot), List.foldl_cons, ih, hdot]
      rfl
    · rw [List.filter_cons_of_pos (by simpa using hdot), List.foldl_cons, List.foldl_cons, ih]

theorem move_name {n : String} (hdot : n ≠ ".") (hup : n ≠ "..") (l : Location) :
    Location.move l n = l ++ [n] := by
  rw [Location.move, if_neg hdot, if_neg hup]

/-- a path goes on from its folder by its last name -/
theorem location_of_parent? {p q : Path} (h : p.parent? = some q) (current : Location) :
    ∃ n, p.names = q.names ++ [n] ∧
      p.location current = Location.move (q.location current) n := by
  obtain ⟨n, hnames⟩ := names_of_parent? h
  refine ⟨n, hnames, ?_⟩
  rw [location_eq_foldl_names, location_eq_foldl_names, hnames, isAbsolute_of_parent? h,
    List.foldl_append]
  rfl

theorem isAbsolute_child (p : Path) {name : String} (hs : '/' ∉ name.toList) :
    (p.child name).isAbsolute = p.isAbsolute := by
  have hname : name.toList.head? ≠ some '/' := fun h => hs (List.mem_of_head? h)
  unfold child isAbsolute
  by_cases hempty : p.text = ""
  · simp [hempty, hname]
  · obtain ⟨c, cs, hcs⟩ := List.exists_cons_of_ne_nil (mt String.toList_eq_nil_iff.mp hempty)
    split <;> simp [hcs]

/-- the draft is beside what the path leads to -/
theorem location_draft {p q : Path} (h : p.draft? = some q) (current : Location) :
    ∃ l n, p.location current = l ++ [n] ∧ q.location current = l ++ [n ++ ".tmp"] := by
  obtain ⟨n, hn, rfl⟩ := Option.map_eq_some_iff.mp h
  obtain ⟨hlast, hup⟩ := fileName?_eq_some_iff.mp hn
  have hmem : n ∈ p.steps.filter (· ≠ ".") := List.mem_of_getLast? hlast
  have hdot : n ≠ "." := by simpa using (List.mem_filter.mp hmem).2
  have hslash : '/' ∉ (n ++ ".tmp").toList := by
    rw [String.toList_append, List.mem_append, not_or]
    exact ⟨not_mem_of_mem_pieces (List.mem_filter.mp (List.mem_filter.mp hmem).1).1, by decide⟩
  have hlong {s : String} (hs : s.length < 4) : n ++ ".tmp" ≠ s := by
    rintro rfl
    rw [String.length_append] at hs
    exact absurd hs (by simp [show (".tmp" : String).length = 4 from rfl])
  have hmove (l : Location) : Location.move l (n ++ ".tmp") = l ++ [n ++ ".tmp"] :=
    move_name (hlong (by decide)) (hlong (by decide)) l
  rw [withFileName]
  cases hq : p.parent? with
  | some folder =>
    obtain ⟨m, hnames, hloc⟩ := location_of_parent? hq current
    obtain rfl : m = n := by
      rw [hnames, List.getLast?_concat] at hlast
      exact Option.some.inj hlast
    refine ⟨folder.location current, m, hloc.trans (move_name hdot hup _), ?_⟩
    rw [location, isAbsolute_child folder hslash, steps_child folder hslash (hlong (by decide)),
      List.foldl_append]
    exact hmove _
  | none =>
    obtain ⟨hnames, habs⟩ := names_of_parent?_eq_none hq hmem
    refine ⟨current, n, ?_, ?_⟩
    · rw [location_eq_foldl_names, hnames, habs]
      exact move_name hdot hup current
    · have halone : (⟨n ++ ".tmp"⟩ : Path) = (⟨""⟩ : Path).child (n ++ ".tmp") := by
        simp [child]
      show (⟨n ++ ".tmp"⟩ : Path).location current = _
      rw [halone, location, isAbsolute_child _ hslash, steps_child _ hslash (hlong (by decide)),
        List.foldl_append]
      exact hmove _

/-- the draft is not where the path leads -/
theorem location_draft_ne {p q : Path} (h : p.draft? = some q) (current : Location) :
    q.location current ≠ p.location current := by
  obtain ⟨l, n, hp, hq⟩ := location_draft h current
  rw [hp, hq]
  intro heq
  have hlast : n ++ ".tmp" = n := (List.cons.inj (List.append_inj' heq rfl).2).1
  have hlength := congrArg String.length hlast
  rw [String.length_append] at hlength
  exact absurd hlength (by simp [show (".tmp" : String).length = 4 from rfl])

end Path

/-! ## following a path -/

namespace Disk

variable {d : Disk}

theorem walk_eq_foldl {l m : Location} {ns : List String} (h : d.walk l ns = .ok m) :
    m = ns.foldl Location.move l := by
  induction ns generalizing l with
  | nil => exact (Except.ok.inj h).symm
  | cons n ns ih =>
    rw [walk] at h
    rw [List.foldl_cons, Location.move]
    by_cases hdot : n = "."
    · rw [if_pos hdot] at h ⊢
      exact ih h
    · rw [if_neg hdot] at h ⊢
      by_cases hup : n = ".."
      · rw [if_pos hup] at h ⊢
        exact ih h
      · rw [if_neg hup] at h ⊢
        split at h
        · exact ih h
        · cases h
        · cases h
        · cases h

theorem walk_append {l m : Location} {ns ms : List String} :
    d.walk l (ns ++ ms) = .ok m ↔ ∃ k, d.walk l ns = .ok k ∧ d.walk k ms = .ok m := by
  induction ns generalizing l with
  | nil => simp [walk]
  | cons n ns ih =>
    rw [List.cons_append, walk, walk]
    by_cases hdot : n = "."
    · rw [if_pos hdot, if_pos hdot]
      exact ih
    · rw [if_neg hdot, if_neg hdot]
      by_cases hup : n = ".."
      · rw [if_pos hup, if_pos hup]
        exact ih
      · rw [if_neg hup, if_neg hup]
        split
        · exact ih
        · simp
        · simp
        · simp

theorem start_eq_ok {p : Path} {l : Location} (h : d.start p = .ok l) :
    l = if p.isAbsolute then [] else d.current := by
  unfold start at h
  split at h
  · cases h
  · split at h
    · cases h
    · exact (Except.ok.inj h).symm

/-- a path leads to its location -/
theorem location_of_place {p : Path} {l : Location} {n : String}
    (h : d.place p = .ok ⟨l, some n⟩) : p.location d.current = l ++ [n] := by
  obtain ⟨k, ns, hk, ⟨hdot, hup, hns⟩, hw⟩ := walk_of_place h
  rw [Path.location, ← start_eq_ok hk, hns, List.foldl_append, ← walk_eq_foldl hw]
  exact Path.move_name hdot hup l

/-- on the way to a place the folder of the path is reached -/
theorem walk_parent?_of_place {p q : Path} {spot : Place} {l : Location} (h : d.place p = .ok spot)
    (hq : p.parent? = some q) (hl : d.start q = .ok l) : ∃ m, d.walk l q.steps = .ok m := by
  obtain ⟨m, dots, dots', hsteps, -, -⟩ := Path.steps_of_parent? hq
  obtain ⟨k, ns, hk, hends, hway⟩ := walk_of_place h
  have hsame : l = k := by
    rw [start_eq_ok hl, start_eq_ok hk, Path.isAbsolute_of_parent? hq]
  have hbefore : ∃ ms, ns = q.steps ++ ms := by
    rcases spot with ⟨folder, _ | n⟩
    · exact ⟨_, hends.symm.trans hsteps⟩
    · have hdrop := congrArg List.dropLast hends.2.2
      rw [List.dropLast_concat, hsteps, List.dropLast_append_of_ne_nil (by simp)] at hdrop
      exact ⟨_, hdrop.symm⟩
  obtain ⟨ms, rfl⟩ := hbefore
  obtain ⟨m, hm, -⟩ := walk_append.mp hway
  rw [hsame]
  exact ⟨m, hm⟩

end Disk

end ChunkLedger
