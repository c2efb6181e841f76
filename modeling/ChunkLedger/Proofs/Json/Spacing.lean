import ChunkLedger.Json.Printer

/-!
# Two layouts in one

The compact and the indented text of a value differ in the blanks between tokens only: before an
item or a field and before a closing bracket (`Spacing.line`, by depth), and after the colon of a
field (`Spacing.gap`).  `v.spaced s d` is the text with the blanks of `s`; with a line break and
indentation it is the indented text (`spaced_lines`), without any blank the compact one
(`spaced_tight`).
-/

namespace ChunkLedger.Json

/-- the blanks of a layout -/
structure Spacing where
  line : Nat → List Char
  gap : List Char
  line_blank : ∀ d, ∀ c ∈ line d, c = ' ' ∨ c = '\n'
  gap_blank : ∀ c ∈ gap, c = ' ' ∨ c = '\n'

namespace Spacing

theorem newLine_blank (d : Nat) : ∀ c ∈ Value.newLine d, c = ' ' ∨ c = '\n' := by
  intro c hc
  rcases List.mem_cons.mp hc with rfl | hc
  · exact .inr rfl
  · exact .inl (List.eq_of_mem_replicate hc)

def lines : Spacing where
  line := Value.newLine
  gap := [' ']
  line_blank := newLine_blank
  gap_blank := by simp

def tight : Spacing where
  line _ := []
  gap := []
  line_blank := by simp
  gap_blank := by simp

end Spacing

namespace Value

mutual

def spaced (s : Spacing) (d : Nat) : Value → List Char
  | .array [] => ['[', ']']
  | .array (v :: vs) => '[' :: spacedItems s (d + 1) (v :: vs) ++ s.line d ++ [']']
  | .object [] => ['\x7b', '\x7d']
  | .object (f :: fs) => '\x7b' :: spacedFields s (d + 1) (f :: fs) ++ s.line d ++ ['\x7d']
  | .null => ['n', 'u', 'l', 'l']
  | .bool true => ['t', 'r', 'u', 'e']
  | .bool false => ['f', 'a', 'l', 's', 'e']
  | .number n => n.render.toList
  | .text t => quote t

def spacedItems (s : Spacing) (d : Nat) : List Value → List Char
  | [] => []
  | [v] => s.line d ++ v.spaced s d
  | v :: w :: vs => s.line d ++ v.spaced s d ++ ',' :: spacedItems s d (w :: vs)

def spacedFields (s : Spacing) (d : Nat) : List (String × Value) → List Char
  | [] => []
  | [(n, v)] => s.line d ++ quote n ++ ':' :: (s.gap ++ v.spaced s d)
  | (n, v) :: f :: fs =>
    s.line d ++ quote n ++ ':' :: (s.gap ++ v.spaced s d) ++ ',' :: spacedFields s d (f :: fs)

end

mutual

theorem spaced_lines (v : Value) (d : Nat) : v.spaced .lines d = v.indented d := by
  match v with
  | .null => rw [spaced, indented]
  | .bool true => rw [spaced, indented]
  | .bool false => rw [spaced, indented]
  | .number n => rw [spaced, indented]
  | .text t => rw [spaced, indented]
  | .array [] => rw [spaced, indented]
  | .array (w :: ws) => rw [spaced, indented, spacedItems_lines (w :: ws)]; rfl
  | .object [] => rw [spaced, indented]
  | .object (f :: fs) => rw [spaced, indented, spacedFields_lines (f :: fs)]; rfl

theorem spacedItems_lines (vs : List Value) (d : Nat) :
    spacedItems .lines d vs = indentedItems d vs := by
  match vs with
  | [] => rw [spacedItems, indentedItems]
  | [v] => rw [spacedItems, indentedItems, spaced_lines v]; rfl
  | v :: w :: ws =>
    rw [spacedItems, indentedItems, spaced_lines v, spacedItems_lines (w :: ws)]
    rfl

theorem spacedFields_lines (fs : List (String × Value)) (d : Nat) :
    spacedFields .lines d fs = indentedFields d fs := by
  match fs with
  | [] => rw [spacedFields, indentedFields]
  | [(n, v)] => rw [spacedFields, indentedFields, spaced_lines v]; rfl
  | (n, v) :: g :: gs =>
    rw [spacedFields, indentedFields, spaced_lines v, spacedFields_lines (g :: gs)]
    rfl

end

mutual

theorem spaced_tight (v : Value) (d : Nat) : v.spaced .tight d = v.compact := by
  match v with
  | .null => rw [spaced, compact]
  | .bool true => rw [spaced, compact]
  | .bool false => rw [spaced, compact]
  | .number n => rw [spaced, compact]
  | .text t => rw [spaced, compact]
  | .array [] => rw [spaced, compact, compactItems]; rfl
  | .array (w :: ws) =>
    have hline : Spacing.tight.line d = [] := rfl
    rw [spaced, compact, spacedItems_tight (w :: ws), hline, List.append_nil]
  | .object [] => rw [spaced, compact, compactFields]; rfl
  | .object (f :: fs) =>
    have hline : Spacing.tight.line d = [] := rfl
    rw [spaced, compact, spacedFields_tight (f :: fs), hline, List.append_nil]

theorem spacedItems_tight (vs : List Value) (d : Nat) :
    spacedItems .tight d vs = compactItems vs := by
  match vs with
  | [] => rw [spacedItems, compactItems]
  | [v] => rw [spacedItems, compactItems, spaced_tight v]; rfl
  | v :: w :: ws =>
    rw [spacedItems, compactItems, spaced_tight v, spacedItems_tight (w :: ws)]
    rfl

theorem spacedFields_tight (fs : List (String × Value)) (d : Nat) :
    spacedFields .tight d fs = compactFields fs := by
  match fs with
  | [] => rw [spacedFields, compactFields]
  | [(n, v)] => rw [spacedFields, compactFields, spaced_tight v]; rfl
  | (n, v) :: g :: gs =>
    rw [spacedFields, compactFields, spaced_tight v, spacedFields_tight (g :: gs)]
    rfl

end

end Value

end ChunkLedger.Json
