import ChunkLedger.Proofs.Json.Number
import ChunkLedger.Proofs.Json.Spacing
import ChunkLedger.Proofs.Json.Text

/-!
# The tokens of a written value

The tokens of a value do not depend on the layout: they are `v.tokenList`, with the blanks left out
(`tokens_spaced`).  This holds for values without doubles (`Value.Whole`).
-/

namespace ChunkLedger.Json

namespace Value

mutual

/-- no number in the value is a double -/
def Whole : Value → Prop
  | .number n => n.Whole
  | .array items => WholeItems items
  | .object fields => WholeFields fields
  | _ => True

def WholeItems : List Value → Prop
  | [] => True
  | v :: vs => v.Whole ∧ WholeItems vs

def WholeFields : List (String × Value) → Prop
  | [] => True
  | (_, v) :: fs => v.Whole ∧ WholeFields fs

end

theorem wholeItems_iff {vs : List Value} : WholeItems vs ↔ ∀ v ∈ vs, v.Whole := by
  induction vs with
  | nil => simp [WholeItems]
  | cons v vs ih => rw [WholeItems, ih, List.forall_mem_cons]

theorem wholeItems_map {α : Type} {f : α → Value} (h : ∀ a, (f a).Whole) (as : List α) :
    WholeItems (as.map f) := by
  rw [wholeItems_iff, List.forall_mem_map]
  intro a _
  exact h a

theorem whole_ofNat64 (n : UInt64) : (ofNat64 n).Whole := by simp [ofNat64, Whole, Number.Whole]

theorem wholeFields_iff {fs : List (String × Value)} :
    WholeFields fs ↔ ∀ f ∈ fs, f.2.Whole := by
  induction fs with
  | nil => simp [WholeFields]
  | cons f fs ih =>
    obtain ⟨n, v⟩ := f
    rw [WholeFields, ih, List.forall_mem_cons]

mutual

/-- the tokens of the value's text -/
def tokenList : Value → List Token
  | .null => [.null]
  | .bool b => [.bool b]
  | .number n => [.number (.number n)]
  | .text s => [.text (.written s)]
  | .array items => .openArray :: itemTokens items ++ [.closeArray]
  | .object fields => .openObject :: fieldTokens fields ++ [.closeObject]

def itemTokens : List Value → List Token
  | [] => []
  | [v] => v.tokenList
  | v :: w :: vs => v.tokenList ++ .comma :: itemTokens (w :: vs)

def fieldTokens : List (String × Value) → List Token
  | [] => []
  | [(n, v)] => .text (.written n) :: .colon :: v.tokenList
  | (n, v) :: f :: fs =>
    .text (.written n) :: .colon :: v.tokenList ++ .comma :: fieldTokens (f :: fs)

end

end Value

/-! ## single tokens -/

theorem tokens_of_scanToken {b : UInt8} {bs rest : Bytes} {t : Token} (hs : isSpace b = false)
    (h : scanToken b bs = (t, rest)) : tokens (b :: bs) = t :: tokens rest := by
  rw [tokens_cons hs, h]

theorem tokens_comma (rest : Bytes) : tokens (44 :: rest) = .comma :: tokens rest :=
  tokens_of_scanToken rfl rfl

theorem tokens_colon (rest : Bytes) : tokens (58 :: rest) = .colon :: tokens rest :=
  tokens_of_scanToken rfl rfl

theorem tokens_openArray (rest : Bytes) : tokens (91 :: rest) = .openArray :: tokens rest :=
  tokens_of_scanToken rfl rfl

theorem tokens_closeArray (rest : Bytes) : tokens (93 :: rest) = .closeArray :: tokens rest :=
  tokens_of_scanToken rfl rfl

theorem tokens_openObject (rest : Bytes) : tokens (123 :: rest) = .openObject :: tokens rest :=
  tokens_of_scanToken rfl rfl

theorem tokens_closeObject (rest : Bytes) : tokens (125 :: rest) = .closeObject :: tokens rest :=
  tokens_of_scanToken rfl rfl

theorem tokens_quote (s : String) (rest : Bytes) :
    tokens (charsUtf8 (quote s) ++ rest) = .text (.written s) :: tokens rest := by
  have hq : charsUtf8 (quote s) ++ rest
      = 34 :: (charsUtf8 (s.toList.flatMap escapeChar ++ ['"']) ++ rest) := by
    rw [quote, List.cons_append, charsUtf8_cons_of_lt (by decide)]
    rfl
  rw [hq]
  apply tokens_of_scanToken rfl
  rw [scanToken, if_pos rfl, scanText_quote]
  rfl

/-- a digit begins a number -/
theorem scanToken_of_isDigit {b : UInt8} (h : isDigit b = true) (bs : Bytes) :
    scanToken b bs = (scanNumber false (b :: bs)).map .number id := by
  have hne (d : UInt8) (hd : isDigit d = false) : b ≠ d := by
    rintro rfl
    rw [h] at hd
    cases hd
  unfold scanToken
  rw [if_neg (hne _ rfl), if_neg (hne _ rfl), if_neg (hne _ rfl), if_neg (hne _ rfl),
    if_neg (hne _ rfl), if_neg (hne _ rfl), if_neg (hne _ rfl), if_neg (hne _ rfl),
    if_neg (hne _ rfl), if_neg (hne _ rfl), if_neg (hne _ rfl), if_pos h]

theorem isSpace_of_isDigit {b : UInt8} (h : isDigit b = true) : isSpace b = false := by
  simp only [isDigit, Bool.and_eq_true, decide_eq_true_eq, UInt8.le_iff_toNat_le] at h
  have hne (d : UInt8) (hd : d.toNat < 48) : decide (b = d) = false := by
    apply decide_eq_false
    rintro rfl
    exact absurd h.1 (Nat.not_le.mpr hd)
  simp only [isSpace, hne 32 (by decide), hne 9 (by decide), hne 10 (by decide),
    hne 13 (by decide), Bool.or_self]

theorem tokens_render {n : Number} (hn : n.Whole) {rest : Bytes} (hr : Ends rest) :
    tokens (charsUtf8 n.render.toList ++ rest) = .number (.number n) :: tokens rest := by
  cases n with
  | natural n =>
    show tokens (charsUtf8 (String.ofList _).toList ++ rest) = _
    rw [String.toList_ofList]
    have hscan := scanNumber_natural n hr
    cases hd : Nat.toDigits 10 n.toNat with
    | nil => exact absurd hd Nat.toDigits_ne_nil
    | cons d ds =>
      have hdig : d.isDigit = true := isDigit_of_mem (n := n.toNat) (by rw [hd]; simp)
      have hlt := lt_of_isDigit hdig
      rw [hd, charsUtf8_cons_of_lt hlt, List.cons_append] at hscan
      rw [charsUtf8_cons_of_lt hlt, List.cons_append]
      apply tokens_of_scanToken (isSpace_of_isDigit (isDigit_byte hdig))
      rw [scanToken_of_isDigit (isDigit_byte hdig), hscan]
      rfl
  | negative m =>
    show tokens (charsUtf8 (String.ofList _).toList ++ rest) = _
    rw [String.toList_ofList, charsUtf8_cons_of_lt (by decide), List.cons_append]
    apply tokens_of_scanToken rfl
    show (scanNumber true _).map Token.number id = _
    rw [scanNumber_negative m hr]
    rfl
  | double x => exact hn.elim

/-! ## blanks -/

section
variable {cs : List Char} (h : ∀ c ∈ cs, c = ' ' ∨ c = '\n')
include h

theorem tokens_blanks (rest : Bytes) : tokens (charsUtf8 cs ++ rest) = tokens rest := by
  induction cs with
  | nil => rfl
  | cons c cs ih =>
    have hcs := ih fun d hd => h d (List.mem_cons_of_mem c hd)
    rcases h c List.mem_cons_self with rfl | rfl
    · rw [charsUtf8_cons_of_lt (by decide), List.cons_append, tokens_space rfl, hcs]
    · rw [charsUtf8_cons_of_lt (by decide), List.cons_append, tokens_space rfl, hcs]

/-- a blank ends a numeral -/
theorem ends_blanks {rest : Bytes} (hr : Ends rest) : Ends (charsUtf8 cs ++ rest) := by
  cases cs with
  | nil => exact hr
  | cons c cs =>
    rcases h c List.mem_cons_self with rfl | rfl
    · rw [charsUtf8_cons_of_lt (by decide), List.cons_append]
      exact ⟨rfl, by decide, by decide, by decide⟩
    · rw [charsUtf8_cons_of_lt (by decide), List.cons_append]
      exact ⟨rfl, by decide, by decide, by decide⟩

end

/-! ## values -/

/-- what may follow an item ends a numeral too -/
theorem ends_comma (rest : Bytes) : Ends (44 :: rest) := ⟨rfl, by decide, by decide, by decide⟩

theorem ends_closeArray (rest : Bytes) : Ends (93 :: rest) :=
  ⟨rfl, by decide, by decide, by decide⟩

theorem ends_closeObject (rest : Bytes) : Ends (125 :: rest) :=
  ⟨rfl, by decide, by decide, by decide⟩

theorem charsUtf8_ascii (c : Char) (h : c.toNat < 128) (cs : List Char) (rest : Bytes) :
    charsUtf8 (c :: cs) ++ rest = UInt8.ofNat c.toNat :: (charsUtf8 cs ++ rest) := by
  rw [charsUtf8_cons_of_lt h, List.cons_append]

/-- a name, up to the value -/
theorem tokens_name (s : Spacing) (d : Nat) (n : String) (cs : List Char) (rest : Bytes) :
    tokens (charsUtf8 (s.line d ++ quote n ++ ':' :: (s.gap ++ cs)) ++ rest)
      = .text (.written n) :: .colon :: tokens (charsUtf8 cs ++ rest) := by
  have hcolon : tokens (charsUtf8 (':' :: (s.gap ++ cs)) ++ rest)
      = .colon :: tokens (charsUtf8 cs ++ rest) := by
    rw [charsUtf8_ascii _ (by decide), charsUtf8_append, List.append_assoc]
    exact (tokens_colon _).trans (congrArg _ (tokens_blanks s.gap_blank _))
  rw [charsUtf8_append, charsUtf8_append, List.append_assoc, List.append_assoc,
    tokens_blanks (s.line_blank d), tokens_quote, hcolon]

mutual

/-- **The tokens of a text are those of its value**, in any layout, and then those of what
follows. -/
theorem tokens_spaced (s : Spacing) (v : Value) (hv : v.Whole) (d : Nat) {rest : Bytes}
    (hr : Ends rest) :
    tokens (charsUtf8 (v.spaced s d) ++ rest) = v.tokenList ++ tokens rest := by
  match v with
  | .null =>
    rw [Value.spaced, Value.tokenList]
    exact tokens_of_scanToken rfl rfl
  | .bool true =>
    rw [Value.spaced, Value.tokenList]
    exact tokens_of_scanToken rfl rfl
  | .bool false =>
    rw [Value.spaced, Value.tokenList]
    exact tokens_of_scanToken rfl rfl
  | .number n =>
    rw [Value.spaced, Value.tokenList]
    exact tokens_render (by simpa [Value.Whole] using hv) hr
  | .text t =>
    rw [Value.spaced, Value.tokenList]
    exact tokens_quote t rest
  | .array [] =>
    rw [Value.spaced, Value.tokenList, Value.itemTokens]
    exact (tokens_openArray _).trans (congrArg _ (tokens_closeArray rest))
  | .array (w :: ws) =>
    have hitems := tokens_spacedItems s (w :: ws) (by simpa [Value.Whole] using hv) (d + 1)
      (ends_blanks (s.line_blank d) (ends_closeArray rest))
    rw [Value.spaced, Value.tokenList, List.cons_append, List.cons_append,
      charsUtf8_ascii _ (by decide), charsUtf8_append, charsUtf8_append, List.append_assoc,
      List.append_assoc]
    refine (tokens_openArray _).trans ?_
    have hclose : charsUtf8 [']'] ++ rest = 93 :: rest := rfl
    rw [hclose, hitems, tokens_blanks (s.line_blank d), tokens_closeArray]
    simp
  | .object [] =>
    rw [Value.spaced, Value.tokenList, Value.fieldTokens]
    exact (tokens_openObject _).trans (congrArg _ (tokens_closeObject rest))
  | .object (f :: fs) =>
    have hfields := tokens_spacedFields s (f :: fs) (by simpa [Value.Whole] using hv) (d + 1)
      (ends_blanks (s.line_blank d) (ends_closeObject rest))
    rw [Value.spaced, Value.tokenList, List.cons_append, List.cons_append,
      charsUtf8_ascii _ (by decide), charsUtf8_append, charsUtf8_append, List.append_assoc,
      List.append_assoc]
    refine (tokens_openObject _).trans ?_
    have hclose : charsUtf8 ['\x7d'] ++ rest = 125 :: rest := rfl
    rw [hclose, hfields, tokens_blanks (s.line_blank d), tokens_closeObject]
    simp

theorem tokens_spacedItems (s : Spacing) (vs : List Value) (hvs : Value.WholeItems vs) (d : Nat)
    {rest : Bytes} (hr : Ends rest) :
    tokens (charsUtf8 (Value.spacedItems s d vs) ++ rest)
      = Value.itemTokens vs ++ tokens rest := by
  match vs with
  | [] =>
    rw [Value.spacedItems, Value.itemTokens]
    rfl
  | [v] =>
    have hv : v.Whole := by simpa [Value.WholeItems] using hvs
    rw [Value.spacedItems, Value.itemTokens, charsUtf8_append, List.append_assoc,
      tokens_blanks (s.line_blank d), tokens_spaced s v hv d hr]
  | v :: w :: vs =>
    have hv : v.Whole ∧ Value.WholeItems (w :: vs) := by simpa [Value.WholeItems] using hvs
    rw [Value.spacedItems, Value.itemTokens, charsUtf8_append, charsUtf8_append,
      charsUtf8_cons_of_lt (by decide), List.append_assoc, List.append_assoc, List.cons_append,
      tokens_blanks (s.line_blank d)]
    refine (tokens_spaced s v hv.1 d (ends_comma _)).trans ?_
    refine (congrArg (v.tokenList ++ ·) (tokens_comma _)).trans ?_
    rw [tokens_spacedItems s (w :: vs) hv.2 d hr]
    simp

theorem tokens_spacedFields (s : Spacing) (fs : List (String × Value))
    (hfs : Value.WholeFields fs) (d : Nat) {rest : Bytes} (hr : Ends rest) :
    tokens (charsUtf8 (Value.spacedFields s d fs) ++ rest)
      = Value.fieldTokens fs ++ tokens rest := by
  match fs with
  | [] =>
    rw [Value.spacedFields, Value.fieldTokens]
    rfl
  | [(n, v)] =>
    have hv : v.Whole := by simpa [Value.WholeFields] using hfs
    rw [Value.spacedFields, Value.fieldTokens, tokens_name, tokens_spaced s v hv d hr]
    rfl
  | (n, v) :: f :: fs =>
    have hv : v.Whole ∧ Value.WholeFields (f :: fs) := by simpa [Value.WholeFields] using hfs
    rw [Value.spacedFields, Value.fieldTokens, charsUtf8_append, List.append_assoc, tokens_name,
      charsUtf8_ascii _ (by decide)]
    have hv' := tokens_spaced s v hv.1 d
      (ends_comma (charsUtf8 (Value.spacedFields s d (f :: fs)) ++ rest))
    refine (congrArg (fun ts => Token.text (.written n) :: Token.colon :: ts)
      (hv'.trans (congrArg (v.tokenList ++ ·) (tokens_comma _)))).trans ?_
    rw [tokens_spacedFields s (f :: fs) hv.2 d hr]
    simp

end

end ChunkLedger.Json
