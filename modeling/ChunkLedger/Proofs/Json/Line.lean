import ChunkLedger.Proofs.Json.Token

/-!
# A compact text is one line

A line break inside a text is escaped, and there are no line breaks between the tokens of a compact
text, so it has none at all (`newline_not_mem_compact`).
-/

namespace ChunkLedger.Json

theorem newline_not_mem_escapeChar (c : Char) : '\n' ∉ escapeChar c := by
  have hhex : ∀ n < 16, '\n' ≠ hexDigitChar n := by decide
  by_cases hspecial : c ∈ '"' :: '\\' :: shortForms
  · simp only [shortForms, List.mem_cons, List.not_mem_nil, or_false] at hspecial
    rcases hspecial with rfl | rfl | rfl | rfl | rfl | rfl | rfl <;> decide
  · rw [List.mem_cons, List.mem_cons, not_or, not_or] at hspecial
    obtain ⟨hq, hs, hc⟩ := hspecial
    rw [escapeChar_of_not_mem hq hs hc]
    split
    · rename_i hlt
      have hhi := hhex (c.toNat / 16) (by omega)
      have hlo := hhex (c.toNat % 16) (Nat.mod_lt _ (by decide))
      simp [hhi, hlo]
    · intro h
      apply hc
      rw [← List.mem_singleton.mp h]
      decide

theorem newline_not_mem_quote (s : String) : '\n' ∉ quote s := by
  intro h
  rcases List.mem_cons.mp h with h | h
  · cases h
  · rcases List.mem_append.mp h with h | h
    · obtain ⟨c, -, hc⟩ := List.mem_flatMap.mp h
      exact newline_not_mem_escapeChar c hc
    · cases List.mem_singleton.mp h

theorem newline_not_mem_toDigits (n : Nat) : '\n' ∉ Nat.toDigits 10 n := by
  intro h
  cases isDigit_of_mem h

theorem newline_not_mem_render {n : Number} (hn : n.Whole) : '\n' ∉ n.render.toList := by
  cases n with
  | natural n =>
    show '\n' ∉ (String.ofList _).toList
    rw [String.toList_ofList]
    exact newline_not_mem_toDigits _
  | negative m =>
    show '\n' ∉ (String.ofList _).toList
    rw [String.toList_ofList]
    exact List.not_mem_cons_of_ne_of_not_mem (by decide) (newline_not_mem_toDigits _)
  | double x => exact hn.elim

namespace Value

mutual

/-- **A compact text has no line break.** -/
theorem newline_not_mem_compact (v : Value) (hv : v.Whole) : '\n' ∉ v.compact := by
  match v with
  | .null => rw [compact]; decide
  | .bool true => rw [compact]; decide
  | .bool false => rw [compact]; decide
  | .number n =>
    rw [compact]
    exact newline_not_mem_render (by simpa [Whole] using hv)
  | .text s =>
    rw [compact]
    exact newline_not_mem_quote s
  | .array vs =>
    have hitems := newline_not_mem_compactItems vs (by simpa [Whole] using hv)
    rw [compact]
    simp [hitems]
  | .object fs =>
    have hfields := newline_not_mem_compactFields fs (by simpa [Whole] using hv)
    rw [compact]
    simp [hfields]

theorem newline_not_mem_compactItems (vs : List Value) (hvs : WholeItems vs) :
    '\n' ∉ compactItems vs := by
  match vs with
  | [] => simp [compactItems]
  | [v] =>
    rw [compactItems]
    exact newline_not_mem_compact v (by simpa [WholeItems] using hvs)
  | v :: w :: ws =>
    have hv : v.Whole ∧ WholeItems (w :: ws) := by simpa [WholeItems] using hvs
    have hfirst := newline_not_mem_compact v hv.1
    have hrest := newline_not_mem_compactItems (w :: ws) hv.2
    rw [compactItems]
    simp [hfirst, hrest]

theorem newline_not_mem_compactFields (fs : List (String × Value)) (hfs : WholeFields fs) :
    '\n' ∉ compactFields fs := by
  match fs with
  | [] => simp [compactFields]
  | [(n, v)] =>
    have hname := newline_not_mem_quote n
    have hv := newline_not_mem_compact v (by simpa [WholeFields] using hfs)
    rw [compactFields]
    simp [hname, hv]
  | (n, v) :: g :: gs =>
    have hv : v.Whole ∧ WholeFields (g :: gs) := by simpa [WholeFields] using hfs
    have hname := newline_not_mem_quote n
    have hfirst := newline_not_mem_compact v hv.1
    have hrest := newline_not_mem_compactFields (g :: gs) hv.2
    rw [compactFields]
    simp [hname, hfirst, hrest]

end

end Value

end ChunkLedger.Json
