/-!
# Blank characters

The Unicode property White_Space, and the removal of blanks at the ends of a text.
-/

namespace ChunkLedger.Text

/-- the property White_Space -/
def isBlank (c : Char) : Bool :=
  let n := c.toNat
  (0x9 ≤ n && n ≤ 0xd) || n = 0x20 || n = 0x85 || n = 0xa0 || n = 0x1680 ||
    (0x2000 ≤ n && n ≤ 0x200a) || n = 0x2028 || n = 0x2029 || n = 0x202f || n = 0x205f ||
    n = 0x3000

/-- the text after its leading blanks -/
def dropBlanks (cs : List Char) : List Char := cs.dropWhile isBlank

def trimBlanks (cs : List Char) : List Char :=
  (dropBlanks (dropBlanks cs).reverse).reverse

theorem dropBlanks_cons (c : Char) (cs : List Char) :
    dropBlanks (c :: cs) = if isBlank c then dropBlanks cs else c :: cs := by
  simp [dropBlanks, List.dropWhile_cons]

theorem dropBlanks_eq_self (c : Char) (cs : List Char) (h : isBlank c = false) :
    dropBlanks (c :: cs) = c :: cs := by
  simp [dropBlanks_cons, h]

/-- only blanks: nothing is left -/
theorem dropBlanks_eq_nil (cs : List Char) (h : ∀ c ∈ cs, isBlank c = true) :
    dropBlanks cs = [] := by
  induction cs with
  | nil => rfl
  | cons c cs ih =>
    rw [dropBlanks_cons, h c (List.mem_cons_self ..), if_pos rfl]
    exact ih fun d hd => h d (List.mem_cons_of_mem _ hd)

theorem dropBlanks_append {pre : List Char} (h : ∀ c ∈ pre, isBlank c = true) (cs : List Char) :
    dropBlanks (pre ++ cs) = dropBlanks cs := by
  induction pre with
  | nil => rfl
  | cons c pre ih =>
    rw [List.cons_append, dropBlanks_cons, h c (List.mem_cons_self ..), if_pos rfl]
    exact ih fun d hd => h d (List.mem_cons_of_mem _ hd)

theorem trimBlanks_eq_nil {cs : List Char} (h : ∀ c ∈ cs, isBlank c = true) :
    trimBlanks cs = [] := by
  rw [trimBlanks, dropBlanks_eq_nil cs h]
  rfl

/-- blanks before and after a text make no difference -/
theorem trimBlanks_append {pre post : List Char} (hpre : ∀ c ∈ pre, isBlank c = true)
    (hpost : ∀ c ∈ post, isBlank c = true) (cs : List Char) :
    trimBlanks (pre ++ cs ++ post) = trimBlanks cs := by
  have hrev : ∀ c ∈ post.reverse, isBlank c = true := by
    intro c hc
    exact hpost c (List.mem_reverse.mp hc)
  have hdrop : dropBlanks (cs ++ post)
      = if (dropBlanks cs).isEmpty then dropBlanks post else dropBlanks cs ++ post :=
    List.dropWhile_append
  rw [trimBlanks, trimBlanks, List.append_assoc, dropBlanks_append hpre, hdrop]
  split
  · rename_i hnil
    rw [dropBlanks_eq_nil post hpost, List.isEmpty_iff.mp hnil]
  · rw [List.reverse_append, dropBlanks_append hrev]

/-- a text that begins and ends with other characters than blanks stays -/
theorem trimBlanks_eq_self {cs : List Char} {c d : Char} (hc : isBlank c = false)
    (hd : isBlank d = false) : trimBlanks (c :: cs ++ [d]) = c :: cs ++ [d] := by
  rw [trimBlanks, List.cons_append, dropBlanks_eq_self c _ hc, ← List.cons_append,
    List.reverse_append, List.reverse_singleton, List.singleton_append, dropBlanks_eq_self d _ hd,
    List.reverse_cons, List.reverse_reverse]

end ChunkLedger.Text
