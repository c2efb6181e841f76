import ChunkLedger.Json.Printer
import ChunkLedger.Json.Token
import ChunkLedger.Proofs.Text.Utf8

/-!
# Reading the texts that are written

A text stands between quotes, each character in its own form: as a short escape, as `\u00..`, or by
its bytes (`charPieces`).  Scanning finds these pieces (`scanText_quote`), and what they stand for is
the text (`decode_written`).
-/

namespace ChunkLedger.Json

/-- the characters below 32 that have a short escape -/
def shortForms : List Char := ['\x08', '\x0c', '\n', '\r', '\t']

/-- what is scanned of a character that is written between quotes -/
def charPieces (c : Char) : List Piece :=
  if c.toNat < 32 ∧ c ∉ shortForms then [.unit c.toNat]
  else (String.utf8EncodeChar c).map .byte

/-- what is scanned of a text that is written between quotes -/
def RawText.written (s : String) : RawText := ⟨s.toList.flatMap charPieces, none⟩

/-! ## scanning -/

/-- bytes that need no escape stand for themselves -/
theorem scanText_plain {bs : Bytes} (h : ∀ b ∈ bs, b ≠ 34 ∧ b ≠ 92 ∧ 32 ≤ b) (acc : List Piece)
    (rest : Bytes) :
    scanText acc (bs ++ rest) = scanText ((bs.map Piece.byte).reverse ++ acc) rest := by
  induction bs generalizing acc with
  | nil => rfl
  | cons b bs ih =>
    obtain ⟨hq, hs, hle⟩ := h b List.mem_cons_self
    rw [List.cons_append, scanText.eq_def]
    simp only [if_neg hq, if_neg hs, if_neg (UInt8.not_lt.mpr hle)]
    rw [ih fun d hd => h d (List.mem_cons_of_mem b hd)]
    simp

theorem scanText_short {e b : UInt8} (he : e ≠ 117) (h : shortEscape? e = some b)
    (acc : List Piece) (rest : Bytes) :
    scanText acc (92 :: e :: rest) = scanText (.byte b :: acc) rest := by
  rw [scanText.eq_def]
  simp [he, h]

theorem scanText_unit {h₁ h₂ h₃ h₄ : UInt8} {n : Nat} (h : hexQuad? h₁ h₂ h₃ h₄ = some n)
    (acc : List Piece) (rest : Bytes) :
    scanText acc (92 :: 117 :: h₁ :: h₂ :: h₃ :: h₄ :: rest) = scanText (.unit n :: acc) rest := by
  rw [scanText.eq_def]
  simp [h]

theorem scanText_closing (acc : List Piece) (rest : Bytes) :
    scanText acc (34 :: rest) = (⟨acc.reverse, none⟩, rest) := by
  rw [scanText.eq_def]
  rfl

/-- the two last digits of a `\u` escape give back the number -/
theorem hexQuad?_hexDigitChar : ∀ n < 32,
    hexQuad? 48 48 (UInt8.ofNat (hexDigitChar (n / 16)).toNat)
      (UInt8.ofNat (hexDigitChar (n % 16)).toNat) = some n := by
  decide

theorem hexDigitChar_lt : ∀ n < 16, (hexDigitChar n).toNat < 128 := by decide

/-- a character without a short escape -/
theorem escapeChar_of_not_mem {c : Char} (hq : c ≠ '"') (hs : c ≠ '\\') (hc : c ∉ shortForms) :
    escapeChar c = if c.toNat < 32 then
        ['\\', 'u', '0', '0', hexDigitChar (c.toNat / 16), hexDigitChar (c.toNat % 16)]
      else [c] := by
  simp only [shortForms, List.mem_cons, List.not_mem_nil, or_false, not_or] at hc
  obtain ⟨hb, hf, hn, hr, ht⟩ := hc
  rw [escapeChar, if_neg hq, if_neg hs, if_neg hb, if_neg hf, if_neg hn, if_neg hr, if_neg ht]

/-- the bytes of a character that needs no escape -/
theorem plain_of_mem_utf8EncodeChar {c : Char} (hle : 32 ≤ c.toNat) (hq : c ≠ '"') (hs : c ≠ '\\')
    {b : UInt8} (hb : b ∈ String.utf8EncodeChar c) : b ≠ 34 ∧ b ≠ 92 ∧ 32 ≤ b := by
  by_cases hlt : c.toNat < 128
  · rw [utf8EncodeChar_of_lt hlt] at hb
    obtain rfl := List.mem_singleton.mp hb
    have hn := toNat_byte (show c.toNat < 256 by omega)
    refine ⟨?_, ?_, ?_⟩
    · intro h
      exact hq (Char.toNat_inj.mp (hn.symm.trans (congrArg UInt8.toNat h)))
    · intro h
      exact hs (Char.toNat_inj.mp (hn.symm.trans (congrArg UInt8.toNat h)))
    · rw [UInt8.le_iff_toNat_le, hn]
      exact hle
  · have h128 := UInt8.le_iff_toNat_le.mp (le_of_mem_utf8EncodeChar (Nat.le_of_not_lt hlt) hb)
    have h128' : 128 ≤ b.toNat := h128
    refine ⟨?_, ?_, ?_⟩
    · rintro rfl
      exact absurd h128' (by decide)
    · rintro rfl
      exact absurd h128' (by decide)
    · exact UInt8.le_iff_toNat_le.mpr (Nat.le_trans (by decide) h128')

/-- scanning a character -/
theorem scanText_escapeChar (acc : List Piece) (c : Char) (rest : Bytes) :
    scanText acc (charsUtf8 (escapeChar c) ++ rest)
      = scanText ((charPieces c).reverse ++ acc) rest := by
  by_cases hspecial : c ∈ '"' :: '\\' :: shortForms
  · -- a short escape stands for the one byte of its character
    simp only [shortForms, List.mem_cons, List.not_mem_nil, or_false] at hspecial
    rcases hspecial with rfl | rfl | rfl | rfl | rfl | rfl | rfl <;>
      exact scanText_short (by decide) (by decide) acc rest
  · rw [List.mem_cons, List.mem_cons, not_or, not_or] at hspecial
    obtain ⟨hq, hs, hc⟩ := hspecial
    rw [escapeChar_of_not_mem hq hs hc]
    by_cases hlt : c.toNat < 32
    · rw [if_pos hlt, charPieces, if_pos ⟨hlt, hc⟩]
      have hhi := hexDigitChar_lt (c.toNat / 16) (by omega)
      have hlo := hexDigitChar_lt (c.toNat % 16) (Nat.mod_lt _ (by decide))
      have hbytes : charsUtf8 ['\\', 'u', '0', '0', hexDigitChar (c.toNat / 16),
            hexDigitChar (c.toNat % 16)]
          = [92, 117, 48, 48, UInt8.ofNat (hexDigitChar (c.toNat / 16)).toNat,
            UInt8.ofNat (hexDigitChar (c.toNat % 16)).toNat] := by
        apply charsUtf8_of_lt
        simp only [List.forall_mem_cons]
        exact ⟨by decide, by decide, by decide, by decide, hhi, hlo, by simp⟩
      rw [hbytes]
      exact scanText_unit (hexQuad?_hexDigitChar c.toNat hlt) acc rest
    · have hle : 32 ≤ c.toNat := Nat.le_of_not_lt hlt
      rw [if_neg hlt, charPieces, if_neg (fun h => hlt h.1), charsUtf8_cons, charsUtf8_nil,
        List.append_nil]
      exact scanText_plain (fun b hb => plain_of_mem_utf8EncodeChar hle hq hs hb) acc rest

theorem scanText_escapeChars (acc : List Piece) (cs : List Char) (rest : Bytes) :
    scanText acc (charsUtf8 (cs.flatMap escapeChar) ++ 34 :: rest)
      = (⟨acc.reverse ++ cs.flatMap charPieces, none⟩, rest) := by
  induction cs generalizing acc with
  | nil =>
    show scanText acc (34 :: rest) = _
    rw [scanText_closing, List.flatMap_nil, List.append_nil]
  | cons c cs ih =>
    rw [List.flatMap_cons, charsUtf8_append, List.append_assoc, scanText_escapeChar, ih]
    simp

/-- scanning a text after its first quote -/
theorem scanText_quote (s : String) (rest : Bytes) :
    scanText [] (charsUtf8 (s.toList.flatMap escapeChar ++ ['"']) ++ rest)
      = (.written s, rest) := by
  have h := scanText_escapeChars [] s.toList rest
  rw [charsUtf8_append, List.append_assoc]
  exact h

/-! ## what the pieces stand for -/

theorem bytesOf_charPieces (acc : Bytes) (c : Char) (ps : List Piece) :
    RawText.bytesOf acc (charPieces c ++ ps) none
      = RawText.bytesOf ((String.utf8EncodeChar c).reverse ++ acc) ps none := by
  unfold charPieces
  split
  · rename_i h
    have hhigh : RawText.isHighSurrogate c.toNat = false := by
      simp only [RawText.isHighSurrogate, Bool.and_eq_false_iff, decide_eq_false_iff_not]
      omega
    have hlow : RawText.isLowSurrogate c.toNat = false := by
      simp only [RawText.isLowSurrogate, Bool.and_eq_false_iff, decide_eq_false_iff_not]
      omega
    have hbytes : RawText.charBytes c.toNat = String.utf8EncodeChar c := by
      rw [RawText.charBytes, Char.ofNat_toNat, String.singleton_eq_ofList, utf8_ofList,
        charsUtf8_cons, charsUtf8_nil, List.append_nil]
    show RawText.bytesOf acc (.unit c.toNat :: ps) none = _
    rw [RawText.bytesOf.eq_def]
    simp only [hlow, hhigh, hbytes, Bool.false_eq_true, if_false]
  · generalize String.utf8EncodeChar c = bs
    induction bs generalizing acc with
    | nil => rfl
    | cons b bs ih =>
      show RawText.bytesOf (b :: acc) (bs.map Piece.byte ++ ps) none = _
      rw [ih]
      simp

/-- what is scanned of a text stands for the text -/
theorem decode_written (s : String) : (RawText.written s).decode = .ok s := by
  have hbytes (acc : Bytes) (cs : List Char) :
      RawText.bytesOf acc (cs.flatMap charPieces) none = .ok (acc.reverse ++ charsUtf8 cs) := by
    induction cs generalizing acc with
    | nil => simp [RawText.bytesOf]
    | cons c cs ih =>
      rw [List.flatMap_cons, bytesOf_charPieces, ih, charsUtf8_cons]
      simp
  have hs : RawText.bytesOf [] (RawText.written s).pieces (RawText.written s).cut
      = .ok (utf8 s) := by
    show RawText.bytesOf [] (s.toList.flatMap charPieces) none = _
    rw [hbytes, ← utf8_ofList, String.ofList_toList]
    rfl
  rw [RawText.decode, hs]
  simp only [ofUtf8?_utf8]

end ChunkLedger.Json
