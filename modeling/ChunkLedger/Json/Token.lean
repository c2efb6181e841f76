import ChunkLedger.Hex
import ChunkLedger.Json.Number

/-!
# JSON tokens

A text is cut into tokens, on its bytes.  Cutting does not fail: a token that is broken off or
spoilt records how (`Break`), and nothing is cut after it.

A broken token still shows by its first byte what it was to be, and some faults only matter to a
reader who wants the value: whether a text is valid UTF-8, whether its surrogates come in pairs,
whether a number is a finite double.  These are left to the reader (`RawText.decode`,
`NumberToken`).
-/

namespace ChunkLedger.Json

/-- How a text stops being JSON: it ends too early, or there is something else. -/
inductive Break where
  | ended
  | malformed
deriving DecidableEq, Repr

/-! ## texts -/

/-- one element between quotes: a byte, which may have been written as a short escape, or the
number of a `\u` escape -/
inductive Piece where
  | byte (b : UInt8)
  | unit (n : Nat)
deriving DecidableEq, Repr

/-- what stands between two quotes; `cut` tells why the closing quote was not reached -/
structure RawText where
  pieces : List Piece
  cut : Option Break
deriving DecidableEq, Repr

namespace RawText

def charBytes (n : Nat) : Bytes := utf8 (String.singleton (Char.ofNat n))

def isHighSurrogate (n : Nat) : Bool := 0xd800 ≤ n && n < 0xdc00

def isLowSurrogate (n : Nat) : Bool := 0xdc00 ≤ n && n < 0xe000

/-- the bytes that the pieces stand for, after `acc` (last first); a surrogate needs its partner -/
def bytesOf : (acc : Bytes) → List Piece → (cut : Option Break) → Except Break Bytes
  | acc, [], none => .ok acc.reverse
  | _, [], some e => .error e
  | acc, .byte b :: ps, cut => bytesOf (b :: acc) ps cut
  | acc, .unit n :: ps, cut =>
    if isLowSurrogate n then .error .malformed
    else if isHighSurrogate n then
      match ps with
      | .unit m :: ps =>
        if isLowSurrogate m then
          let c := (n - 0xd800) * 0x400 + (m - 0xdc00) + 0x10000
          bytesOf ((charBytes c).reverse ++ acc) ps cut
        else .error .malformed
      | .byte _ :: _ => .error .malformed
      | [] => .error (cut.getD .malformed)
    else bytesOf ((charBytes n).reverse ++ acc) ps cut

def decode (t : RawText) : Except Break String :=
  match bytesOf [] t.pieces t.cut with
  | .error e => .error e
  | .ok bs =>
    match ofUtf8? bs with
    | some s => .ok s
    | none => .error .malformed

/-- `s`, with every byte standing for itself -/
def ofString (s : String) : RawText := ⟨(utf8 s).map .byte, none⟩

theorem bytesOf_bytes (acc bs : Bytes) :
    bytesOf acc (bs.map .byte) none = .ok (acc.reverse ++ bs) := by
  induction bs generalizing acc with
  | nil => simp [bytesOf]
  | cons b bs ih => simp [bytesOf, ih]

end RawText

/-- the byte that a backslash and `b` stand for -/
def shortEscape? (b : UInt8) : Option UInt8 :=
  if b = 34 ∨ b = 92 ∨ b = 47 then some b
  else if b = 98 then some 8
  else if b = 102 then some 12
  else if b = 110 then some 10
  else if b = 114 then some 13
  else if b = 116 then some 9
  else none

def hexQuad? (a b c d : UInt8) : Option Nat :=
  match Hex.value? a, Hex.value? b, Hex.value? c, Hex.value? d with
  | some a, some b, some c, some d => some (((a * 16 + b) * 16 + c) * 16 + d)
  | _, _, _, _ => none

/-- the text after an opening quote, and the bytes after the closing one; `acc` holds the pieces
read so far, last first -/
def scanText : (acc : List Piece) → Bytes → RawText × Bytes
  | acc, [] => (⟨acc.reverse, some .ended⟩, [])
  | acc, b :: rest =>
    if b = 34 then (⟨acc.reverse, none⟩, rest)
    else if b = 92 then
      match rest with
      | [] => (⟨acc.reverse, some .ended⟩, [])
      | e :: rest =>
        if e = 117 then
          match rest with
          | h1 :: h2 :: h3 :: h4 :: rest =>
            match hexQuad? h1 h2 h3 h4 with
            | some n => scanText (.unit n :: acc) rest
            | none => (⟨acc.reverse, some .malformed⟩, [])
          | _ => (⟨acc.reverse, some .ended⟩, [])
        else
          match shortEscape? e with
          | some c => scanText (.byte c :: acc) rest
          | none => (⟨acc.reverse, some .malformed⟩, [])
    else if b < 32 then (⟨acc.reverse, some .malformed⟩, [])
    else scanText (.byte b :: acc) rest

theorem length_scanText_le (acc : List Piece) (bs : Bytes) :
    (scanText acc bs).2.length ≤ bs.length := by
  fun_induction scanText acc bs <;> simp_all <;> omega

/-! ## numbers -/

/-- A number, a numeral beyond the finite doubles, or a numeral broken off: at the end of the
text, or before something that does not continue it. -/
inductive NumberToken where
  | number (n : Number)
  | notFinite
  | cut (atEnd : Bool)
deriving DecidableEq, Repr

def isDigit (b : UInt8) : Bool := 48 ≤ b && b ≤ 57

def spanDigits : Bytes → List Nat × Bytes
  | [] => ([], [])
  | b :: bs =>
    if isDigit b then
      let (ds, rest) := spanDigits bs
      ((b.toNat - 48) :: ds, rest)
    else ([], b :: bs)

theorem length_spanDigits_le (bs : Bytes) : (spanDigits bs).2.length ≤ bs.length := by
  fun_induction spanDigits bs <;> simp_all
  omega

/-- digits that have to be there; the error tells whether the text ends instead -/
def someDigits (bs : Bytes) : Except Bool (List Nat × Bytes) :=
  match spanDigits bs with
  | ([], rest) => .error rest.isEmpty
  | (ds, rest) => .ok (ds, rest)

/-- a whole part: a single zero, or digits that do not begin with one -/
def scanWhole (bs : Bytes) : Except Bool (List Nat × Bytes) := do
  let (ds, rest) ← someDigits bs
  match ds with
  | 0 :: _ :: _ => throw false
  | ds => return (ds, rest)

def scanFraction (bs : Bytes) : Except Bool (Option (List Nat) × Bytes) :=
  match bs with
  | 46 :: bs => do
    let (ds, rest) ← someDigits bs
    return (some ds, rest)
  | bs => .ok (none, bs)

def scanExponent (bs : Bytes) : Except Bool (Option (Bool × List Nat) × Bytes) :=
  match bs with
  | [] => .ok (none, [])
  | b :: rest =>
    if b = 101 ∨ b = 69 then
      match rest with
      | 43 :: rest => do
        let (ds, rest) ← someDigits rest
        return (some (false, ds), rest)
      | 45 :: rest => do
        let (ds, rest) ← someDigits rest
        return (some (true, ds), rest)
      | rest => do
        let (ds, rest) ← someDigits rest
        return (some (false, ds), rest)
    else .ok (none, b :: rest)

def scanNumeral (negative : Bool) (bs : Bytes) : Except Bool (Numeral × Bytes) := do
  let (whole, bs) ← scanWhole bs
  let (fraction, bs) ← scanFraction bs
  let (exponent, bs) ← scanExponent bs
  return (⟨negative, whole, fraction, exponent⟩, bs)

/-- a number after its sign, and the bytes after it -/
def scanNumber (negative : Bool) (bs : Bytes) : NumberToken × Bytes :=
  match scanNumeral negative bs with
  | .error atEnd => (.cut atEnd, [])
  | .ok (n, rest) =>
    match n.toNumber? with
    | some n => (.number n, rest)
    | none => (.notFinite, rest)

/-! ## words -/

/-- the rest of a word, and the bytes after it -/
def scanWord : (expected : Bytes) → Bytes → Except Break Bytes
  | [], bs => .ok bs
  | _ :: _, [] => .error .ended
  | e :: es, b :: bs => if b = e then scanWord es bs else .error .malformed

/-! ## tokens -/

inductive Token where
  | openArray | closeArray | openObject | closeObject | comma | colon
  | null | bool (b : Bool)
  /-- a word that is none of `null`, `true` and `false` -/
  | brokenWord (e : Break)
  | number (n : NumberToken)
  | text (t : RawText)
  | stray
deriving DecidableEq, Repr

def word (expected : Bytes) (t : Token) (bs : Bytes) : Token × Bytes :=
  match scanWord expected bs with
  | .ok rest => (t, rest)
  | .error e => (.brokenWord e, [])

/-- the token that begins with the byte `b`, and the bytes after it -/
def scanToken (b : UInt8) (bs : Bytes) : Token × Bytes :=
  if b = 34 then (scanText [] bs).map .text id
  else if b = 91 then (.openArray, bs)
  else if b = 93 then (.closeArray, bs)
  else if b = 123 then (.openObject, bs)
  else if b = 125 then (.closeObject, bs)
  else if b = 44 then (.comma, bs)
  else if b = 58 then (.colon, bs)
  else if b = 110 then word [117, 108, 108] .null bs
  else if b = 116 then word [114, 117, 101] (.bool true) bs
  else if b = 102 then word [97, 108, 115, 101] (.bool false) bs
  else if b = 45 then (scanNumber true bs).map .number id
  else if isDigit b then (scanNumber false (b :: bs)).map .number id
  else (.stray, [])

def isSpace (b : UInt8) : Bool := b = 32 || b = 9 || b = 10 || b = 13

/-! ## the rest gets shorter -/

theorem length_scanWord_le {expected bs rest : Bytes} (h : scanWord expected bs = .ok rest) :
    rest.length ≤ bs.length := by
  fun_induction scanWord expected bs with
  | case1 bs => cases h; exact Nat.le_refl _
  | case2 => cases h
  | case3 e es bs ih => exact Nat.le_succ_of_le (ih h)
  | case4 => cases h

theorem length_word_le (expected : Bytes) (t : Token) (bs : Bytes) :
    (word expected t bs).2.length ≤ bs.length := by
  unfold word
  split
  · exact length_scanWord_le ‹_›
  · exact Nat.zero_le _

theorem length_someDigits_lt {bs rest : Bytes} {ds : List Nat}
    (h : someDigits bs = .ok (ds, rest)) : rest.length < bs.length := by
  unfold someDigits at h
  split at h
  · cases h
  · rename_i ds' rest' hne heq
    cases h
    cases bs with
    | nil => cases heq; exact (hne rfl).elim
    | cons b bs =>
      have hle := length_spanDigits_le bs
      simp only [spanDigits] at heq
      split at heq
      · cases heq
        simp only [List.length_cons]
        omega
      · cases heq
        exact (hne rfl).elim

theorem length_scanWhole_lt {bs rest : Bytes} {ds : List Nat}
    (h : scanWhole bs = .ok (ds, rest)) : rest.length < bs.length := by
  unfold scanWhole at h
  cases hd : someDigits bs with
  | error e => rw [hd] at h; cases h
  | ok p =>
    obtain ⟨ds', rest'⟩ := p
    rw [hd] at h
    have hlt := length_someDigits_lt hd
    simp only [bind, Except.bind] at h
    split at h
    · cases h
    · cases h; exact hlt

theorem length_scanFraction_le {bs rest : Bytes} {f : Option (List Nat)}
    (h : scanFraction bs = .ok (f, rest)) : rest.length ≤ bs.length := by
  unfold scanFraction at h
  split at h
  · rename_i bs
    cases hd : someDigits bs with
    | error e => rw [hd] at h; cases h
    | ok p =>
      rw [hd] at h
      cases h
      have := length_someDigits_lt hd
      simp only [List.length_cons]
      omega
  · cases h; exact Nat.le_refl _

theorem length_scanExponent_le {bs rest : Bytes} {e : Option (Bool × List Nat)}
    (h : scanExponent bs = .ok (e, rest)) : rest.length ≤ bs.length := by
  have key : ∀ (minus : Bool) (cs : Bytes), cs.length ≤ bs.length →
      (do let (ds, rest) ← someDigits cs; return (some (minus, ds), rest)) = Except.ok (e, rest) →
      rest.length ≤ bs.length := by
    intro minus cs hcs h
    cases hd : someDigits cs with
    | error e => rw [hd] at h; cases h
    | ok p =>
      rw [hd] at h
      cases h
      have := length_someDigits_lt hd
      omega
  unfold scanExponent at h
  split at h
  · cases h; exact Nat.le_refl _
  · split at h
    · split at h
      · exact key _ _ (by simp only [List.length_cons]; omega) h
      · exact key _ _ (by simp only [List.length_cons]; omega) h
      · exact key _ _ (by simp only [List.length_cons]; omega) h
    · cases h; exact Nat.le_refl _

theorem length_scanNumber_lt (negative : Bool) (b : UInt8) (bs : Bytes) :
    (scanNumber negative (b :: bs)).2.length ≤ bs.length := by
  unfold scanNumber
  split
  · exact Nat.zero_le _
  · rename_i n rest h
    have key : rest.length < (b :: bs).length := by
      unfold scanNumeral at h
      cases hw : scanWhole (b :: bs) with
      | error e => rw [hw] at h; cases h
      | ok p =>
        rw [hw] at h
        have h1 := length_scanWhole_lt hw
        simp only [bind, Except.bind] at h
        cases hf : scanFraction p.2 with
        | error e => rw [hf] at h; cases h
        | ok q =>
          rw [hf] at h
          have h2 := length_scanFraction_le hf
          simp only at h
          cases he : scanExponent q.2 with
          | error e => rw [he] at h; cases h
          | ok r =>
            rw [he] at h
            have h3 := length_scanExponent_le he
            cases h
            omega
    have : rest.length ≤ bs.length := by simpa using Nat.le_of_lt_succ key
    split <;> exact this

theorem length_scanNumber_le (negative : Bool) (bs : Bytes) :
    (scanNumber negative bs).2.length ≤ bs.length := by
  cases bs with
  | nil => cases negative <;> exact Nat.le_refl _
  | cons b bs => exact Nat.le_succ_of_le (length_scanNumber_lt negative b bs)

theorem length_scanToken_le (b : UInt8) (bs : Bytes) :
    (scanToken b bs).2.length ≤ bs.length := by
  unfold scanToken
  by_cases h : b = 34
  · rw [if_pos h]; exact length_scanText_le [] bs
  rw [if_neg h]
  iterate 6
    refine iteInduction (motive := fun r : Token × Bytes => r.2.length ≤ bs.length)
      (fun _ => Nat.le_refl _) fun _ => ?_
  iterate 3
    refine iteInduction (motive := fun r : Token × Bytes => r.2.length ≤ bs.length)
      (fun _ => length_word_le _ _ bs) fun _ => ?_
  refine iteInduction (motive := fun r : Token × Bytes => r.2.length ≤ bs.length)
    (fun _ => length_scanNumber_le true bs) fun _ => ?_
  exact iteInduction (motive := fun r : Token × Bytes => r.2.length ≤ bs.length)
    (fun _ => length_scanNumber_lt false b bs) fun _ => Nat.zero_le _

/-- the tokens of a text, blanks left out; nothing follows a broken token -/
def tokens (bs : Bytes) : List Token :=
  match bs with
  | [] => []
  | b :: bs =>
    if isSpace b then tokens bs
    else
      have := length_scanToken_le b bs
      (scanToken b bs).1 :: tokens (scanToken b bs).2
termination_by bs.length
decreasing_by all_goals simp only [List.length_cons]; omega

@[simp] theorem tokens_nil : tokens [] = [] := by rw [tokens]

theorem tokens_space {b : UInt8} {bs : Bytes} (h : isSpace b = true) :
    tokens (b :: bs) = tokens bs := by
  rw [tokens]; simp [h]

theorem tokens_cons {b : UInt8} {bs : Bytes} (h : isSpace b = false) :
    tokens (b :: bs) = (scanToken b bs).1 :: tokens (scanToken b bs).2 := by
  rw [tokens]; simp [h]

end ChunkLedger.Json
