import ChunkLedger.Proofs.Hash.Hex
import Mathlib.Data.List.Induction

/-!
# Which texts are hexadecimal

Reading looks at bytes, two at a time, and each byte is a digit or not (`Hex.IsDigit`).  Where all
are digits the bytes that are read are written with the same digits, but in lower case
(`Hex.pairs_of_digits`); where one is not the first such byte is reported (`Hex.pairs_of_firstBad`).

No other character has a byte that is a digit, so what holds of the bytes of a text holds of its
characters.  Hence a text is read as some bytes exactly if they are written as the text in lower
case (`Hex.decode_eq_ok_iff`), and as a digest likewise (`Digest.ofHex_eq_ok_iff`).
-/

namespace ChunkLedger

namespace Hex

/-- the digits of either case -/
def digitChars : List Char :=
  ['0', '1', '2', '3', '4', '5', '6', '7', '8', '9', 'a', 'b', 'c', 'd', 'e', 'f',
    'A', 'B', 'C', 'D', 'E', 'F']

def charOf (b : UInt8) : Char := Char.ofNat b.toNat

def IsDigit (b : UInt8) : Prop := charOf b ∈ digitChars

instance (b : UInt8) : Decidable (IsDigit b) := inferInstanceAs (Decidable (_ ∈ _))

/-- the first byte that is no digit is `b`, at the offset `i` -/
structure FirstBad (ds : Bytes) (b : UInt8) (i : Nat) : Prop where
  at_offset : ds[i]? = some b
  bad : ¬ IsDigit b
  before : ∀ c ∈ ds.take i, IsDigit c

/-! ## single digits -/

/-- there are 256 bytes, so what holds of all of them can be decided by trying each -/
instance decidableForallByte {P : UInt8 → Prop} [DecidablePred P] : Decidable (∀ b, P b) :=
  decidable_of_iff (∀ n < 256, P (UInt8.ofNat n))
    ⟨fun h b => UInt8.ofNat_toNat (x := b) ▸ h b.toNat b.toNat_lt, fun h n _ => h (UInt8.ofNat n)⟩

/-- the value of a digit, written again, is the digit in lower case -/
theorem value?_of_isDigit : ∀ b, IsDigit b →
    ∃ n < 16, value? b = some n ∧ charOf (digit n) = (charOf b).toLower := by
  decide +kernel

theorem value?_of_not_isDigit : ∀ b, ¬ IsDigit b → value? b = none := by
  decide +kernel

theorem lt_of_isDigit : ∀ b, IsDigit b → b < 128 := by
  decide +kernel

theorem lt_of_mem_digitChars {c : Char} (h : c ∈ digitChars) : c.toNat < 128 := by
  have hall : digitChars.all (fun c => decide (c.toNat < 128)) = true := by decide
  exact of_decide_eq_true (List.all_eq_true.mp hall c h)

theorem isDigit_ofNat {c : Char} (h : c.toNat < 256) :
    IsDigit (UInt8.ofNat c.toNat) ↔ c ∈ digitChars := by
  rw [IsDigit, charOf, toNat_byte h, Char.ofNat_toNat]

/-- only a digit becomes a digit in lower case -/
theorem mem_digitChars_of_toLower {c : Char} (h : c.toLower ∈ digitChars) : c ∈ digitChars := by
  by_cases hc : c.toNat < 128
  · have small : ∀ n < 128, (Char.ofNat n).toLower ∈ digitChars → Char.ofNat n ∈ digitChars := by
      decide +kernel
    rw [← Char.ofNat_toNat c] at h ⊢
    exact small c.toNat hc h
  · have hupper : ¬ (c.val ≥ 'A'.val ∧ c.val ≤ 'Z'.val) := by
      rintro ⟨-, hle⟩
      have : c.toNat ≤ 90 := UInt32.le_iff_toNat_le.mp hle
      omega
    have hlower : c.toLower = c := dif_neg hupper
    rwa [hlower] at h

theorem isDigit_of_mem_digits {bs : Bytes} {b : UInt8} (h : b ∈ digits bs) : IsDigit b := by
  have hdigit (n : Nat) : IsDigit (digit n) := by
    unfold digit
    split <;> decide
  obtain ⟨a, -, ha⟩ := List.mem_flatMap.mp h
  simp only [List.mem_cons, List.not_mem_nil, or_false] at ha
  rcases ha with rfl | rfl
  · exact hdigit _
  · exact hdigit _

/-! ## pairs of digits -/

theorem pair_of_digits {i : Nat} {hi lo : UInt8} (hhi : IsDigit hi) (hlo : IsDigit lo) :
    ∃ b, pair i hi lo = .ok b ∧
      (digits [b]).map charOf = [(charOf hi).toLower, (charOf lo).toLower] := by
  obtain ⟨h, hh, hvh, hch⟩ := value?_of_isDigit hi hhi
  obtain ⟨l, hl, hvl, hcl⟩ := value?_of_isDigit lo hlo
  have hb : (UInt8.ofNat (16 * h + l)).toNat = 16 * h + l := by
    rw [UInt8.toNat_ofNat']
    exact Nat.mod_eq_of_lt (by omega)
  refine ⟨UInt8.ofNat (16 * h + l), by rw [pair, hvh, hvl], ?_⟩
  rw [digits_cons, digits_nil, hb, show (16 * h + l) / 16 = h by omega,
    show (16 * h + l) % 16 = l by omega, List.map_cons, List.map_singleton, hch, hcl]

/-- digits are read as the bytes that are written with them in lower case -/
theorem pairs_of_digits {ds : Bytes} (heven : ds.length % 2 = 0) (h : ∀ b ∈ ds, IsDigit b)
    (i : Nat) (acc : Bytes) : ∃ bs, pairs i acc ds = .ok (acc.reverse ++ bs) ∧
      (digits bs).map charOf = ds.map fun b => (charOf b).toLower := by
  induction ds using List.twoStepInduction generalizing i acc with
  | nil => exact ⟨[], by simp [pairs], rfl⟩
  | singleton b => cases heven
  | cons_cons hi lo ds ih _ =>
    obtain ⟨b, hb, hdigits⟩ := pair_of_digits (i := i) (h hi (by simp)) (h lo (by simp))
    have heven' : ds.length % 2 = 0 := by
      rw [List.length_cons, List.length_cons] at heven
      omega
    obtain ⟨bs, hbs, hrest⟩ := ih heven' (fun c hc => h c (by simp [hc])) (i + 2) (b :: acc)
    refine ⟨b :: bs, ?_, ?_⟩
    · rw [pairs, hb]
      simp only
      rw [hbs, List.reverse_cons, List.append_assoc, List.singleton_append]
    · rw [List.map_cons, List.map_cons, ← hrest]
      show (digits ([b] ++ bs)).map charOf = _
      rw [digits, List.flatMap_append, List.map_append]
      exact congrArg (· ++ _) hdigits

/-- the first byte that is no digit is reported with its offset -/
theorem pairs_of_firstBad {front rest : Bytes} {b : UInt8} (hfront : ∀ c ∈ front, IsDigit c)
    (hb : ¬ IsDigit b) (heven : (front ++ b :: rest).length % 2 = 0) (i : Nat) (acc : Bytes) :
    pairs i acc (front ++ b :: rest) = .error (.badByte b (i + front.length)) := by
  induction front using List.twoStepInduction generalizing i acc with
  | nil =>
    cases rest with
    | nil => cases heven
    | cons lo rest =>
      rw [List.nil_append, pairs, pair, value?_of_not_isDigit b hb]
      rfl
  | singleton hi =>
    obtain ⟨h, -, hv, -⟩ := value?_of_isDigit hi (hfront hi (by simp))
    rw [List.singleton_append, pairs, pair, hv, value?_of_not_isDigit b hb]
    rfl
  | cons_cons hi lo front ih _ =>
    obtain ⟨c, hc, -⟩ :=
      pair_of_digits (i := i) (hfront hi (by simp)) (hfront lo (by simp))
    rw [List.cons_append, List.cons_append] at heven ⊢
    have heven' : (front ++ b :: rest).length % 2 = 0 := by
      rw [List.length_cons, List.length_cons] at heven
      omega
    rw [pairs, hc]
    simp only
    rw [ih (fun d hd => hfront d (by simp [hd])) heven', List.length_cons, List.length_cons]
    congr 2
    omega

theorem FirstBad.pairs_eq {ds : Bytes} {b : UInt8} {i : Nat} (h : FirstBad ds b i)
    (heven : ds.length % 2 = 0) : pairs 0 [] ds = .error (.badByte b i) := by
  obtain ⟨hi, hget⟩ := List.getElem?_eq_some_iff.mp h.at_offset
  have hsplit : ds.take i ++ b :: ds.drop (i + 1) = ds := by
    rw [← hget, ← List.drop_eq_getElem_cons hi, List.take_append_drop]
  have hpairs := pairs_of_firstBad h.before h.bad (hsplit.symm ▸ heven) 0 []
  rwa [hsplit, List.length_take, Nat.min_eq_left (Nat.le_of_lt hi), Nat.zero_add] at hpairs

theorem exists_firstBad {ds : Bytes} (h : ¬ ∀ b ∈ ds, IsDigit b) : ∃ b i, FirstBad ds b i := by
  induction ds with
  | nil => exact absurd (fun _ hb => nomatch hb) h
  | cons d ds ih =>
    by_cases hd : IsDigit d
    · obtain ⟨b, i, hbad⟩ := ih fun hall => h (List.forall_mem_cons.mpr ⟨hd, hall⟩)
      exact ⟨b, i + 1, hbad.at_offset, hbad.bad, List.forall_mem_cons.mpr ⟨hd, hbad.before⟩⟩
    · exact ⟨d, 0, rfl, hd, fun _ hc => nomatch hc⟩

/-! ## texts -/

theorem utf8_eq_charsUtf8 (s : String) : utf8 s = charsUtf8 s.toList := by
  rw [← utf8_ofList, String.ofList_toList]

/-- the bytes of a text whose characters are digits are the numbers of its characters -/
theorem utf8_of_digits {s : String} (h : ∀ c ∈ s.toList, c ∈ digitChars) :
    utf8 s = s.toList.map fun c => UInt8.ofNat c.toNat := by
  rw [utf8_eq_charsUtf8]
  exact charsUtf8_of_lt fun c hc => lt_of_mem_digitChars (h c hc)

/-- the bytes of a text are digits if its characters are -/
theorem forall_isDigit_iff {s : String} :
    (∀ b ∈ utf8 s, IsDigit b) ↔ ∀ c ∈ s.toList, c ∈ digitChars := by
  constructor
  · intro h c hc
    have hbytes : ∀ b ∈ String.utf8EncodeChar c, IsDigit b := by
      intro b hb
      refine h b ?_
      rw [utf8_eq_charsUtf8]
      exact List.mem_flatMap.mpr ⟨c, hc, hb⟩
    by_cases hlt : c.toNat < 128
    · rw [utf8EncodeChar_of_lt hlt] at hbytes
      exact (isDigit_ofNat (by omega)).mp (hbytes _ (List.mem_singleton.mpr rfl))
    · -- the first byte of any other character is no digit
      obtain ⟨b, hb⟩ := List.exists_mem_of_ne_nil _ (String.utf8EncodeChar_ne_nil (c := c))
      have hle := le_of_mem_utf8EncodeChar (Nat.not_lt.mp hlt) hb
      exact absurd (lt_of_isDigit b (hbytes b hb)) (UInt8.not_lt.mpr hle)
  · intro h b hb
    rw [utf8_of_digits h] at hb
    obtain ⟨c, hc, rfl⟩ := List.mem_map.mp hb
    have hlt := lt_of_mem_digitChars (h c hc)
    exact (isDigit_ofNat (by omega)).mpr (h c hc)

theorem length_utf8_of_digits {s : String} (h : ∀ c ∈ s.toList, c ∈ digitChars) :
    (utf8 s).length = s.length := by
  rw [utf8_of_digits h, List.length_map, String.length_toList]

theorem toList_toLower (s : String) : s.toLower.toList = s.toList.map Char.toLower :=
  String.toList_map

theorem toList_encode (bs : Bytes) : (encode bs).toList = (digits bs).map charOf :=
  String.toList_ofList

/-- a text of digits in pairs is read as the bytes that are written as it is in lower case -/
theorem pairs_of_text {s : String} (heven : (utf8 s).length % 2 = 0)
    (h : ∀ b ∈ utf8 s, IsDigit b) : ∃ bs, pairs 0 [] (utf8 s) = .ok bs ∧ encode bs = s.toLower := by
  obtain ⟨bs, hbs, hdigits⟩ := pairs_of_digits heven h 0 []
  have hchars := forall_isDigit_iff.mp h
  refine ⟨bs, hbs, String.toList_inj.mp ?_⟩
  rw [toList_encode, hdigits, toList_toLower, utf8_of_digits hchars, List.map_map]
  refine List.map_congr_left fun c hc => ?_
  have hlt := lt_of_mem_digitChars (hchars c hc)
  show (charOf (UInt8.ofNat c.toNat)).toLower = c.toLower
  rw [charOf, toNat_byte (by omega), Char.ofNat_toNat]

/-- only digits become an encoded text in lower case -/
theorem digits_of_encode_eq {s : String} {bs : Bytes} (h : encode bs = s.toLower) :
    (∀ c ∈ s.toList, c ∈ digitChars) ∧ s.length = 2 * bs.length := by
  have hlist : (digits bs).map charOf = s.toList.map Char.toLower := by
    rw [← toList_encode, h, toList_toLower]
  constructor
  · intro c hc
    have hmem : c.toLower ∈ (digits bs).map charOf := by
      rw [hlist]
      exact List.mem_map_of_mem hc
    obtain ⟨b, hb, hcb⟩ := List.mem_map.mp hmem
    refine mem_digitChars_of_toLower ?_
    rw [← hcb]
    exact isDigit_of_mem_digits hb
  · have hlength := congrArg List.length hlist
    rw [List.length_map, List.length_map, length_digits, String.length_toList] at hlength
    exact hlength.symm

/-- **A text is read as some bytes exactly if they are written as the text in lower case.** -/
theorem pairs_eq_ok_iff {s : String} {bs : Bytes} (heven : (utf8 s).length % 2 = 0) :
    pairs 0 [] (utf8 s) = .ok bs ↔ encode bs = s.toLower := by
  constructor
  · intro h
    by_cases hall : ∀ b ∈ utf8 s, IsDigit b
    · obtain ⟨as, has, henc⟩ := pairs_of_text heven hall
      cases has.symm.trans h
      exact henc
    · obtain ⟨b, i, hbad⟩ := exists_firstBad hall
      cases (hbad.pairs_eq heven).symm.trans h
  · intro h
    obtain ⟨as, has, henc⟩ :=
      pairs_of_text heven (forall_isDigit_iff.mpr (digits_of_encode_eq h).1)
    rwa [encode_inj (henc.trans h.symm)] at has

theorem pairs_eq_error_iff {ds : Bytes} (heven : ds.length % 2 = 0) {f : Fault} :
    pairs 0 [] ds = .error f ↔ ∃ b i, FirstBad ds b i ∧ f = .badByte b i := by
  constructor
  · intro h
    by_cases hall : ∀ b ∈ ds, IsDigit b
    · obtain ⟨bs, hbs, -⟩ := pairs_of_digits heven hall 0 []
      cases hbs.symm.trans h
    · obtain ⟨b, i, hbad⟩ := exists_firstBad hall
      cases (hbad.pairs_eq heven).symm.trans h
      exact ⟨b, i, hbad, rfl⟩
  · rintro ⟨b, i, hbad, rfl⟩
    exact hbad.pairs_eq heven

/-! ## texts of any length and of a prescribed one -/

theorem length_utf8_of_encode_eq {s : String} {bs : Bytes} (h : encode bs = s.toLower) :
    (utf8 s).length = 2 * bs.length := by
  obtain ⟨hchars, hlength⟩ := digits_of_encode_eq h
  rw [length_utf8_of_digits hchars, hlength]

theorem decode_eq_ok_iff {s : String} {bs : Bytes} :
    decode s = .ok bs ↔ encode bs = s.toLower := by
  unfold decode decodeDigits
  split
  · rename_i hodd
    refine ⟨nofun, fun h => ?_⟩
    have hlength := length_utf8_of_encode_eq h
    omega
  · exact pairs_eq_ok_iff (by omega)

theorem exists_decode_iff {s : String} :
    (∃ bs, decode s = .ok bs) ↔ (utf8 s).length % 2 = 0 ∧ ∀ b ∈ utf8 s, IsDigit b := by
  constructor
  · rintro ⟨bs, h⟩
    have henc := decode_eq_ok_iff.mp h
    have hlength := length_utf8_of_encode_eq henc
    exact ⟨by omega, forall_isDigit_iff.mpr (digits_of_encode_eq henc).1⟩
  · rintro ⟨heven, hall⟩
    obtain ⟨bs, -, henc⟩ := pairs_of_text heven hall
    exact ⟨bs, decode_eq_ok_iff.mpr henc⟩

/-- why a text, here its bytes, is refused where `n` bytes are to be read -/
def Refused (n : Nat) (ds : Bytes) : Fault → Prop
  | .oddLength => ds.length % 2 = 1
  | .wrongLength => ds.length % 2 = 0 ∧ ds.length ≠ 2 * n
  | .badByte b i => ds.length = 2 * n ∧ FirstBad ds b i

theorem decodeExactly_eq_ok_iff {n : Nat} {s : String} {bs : Bytes} :
    decodeExactly n s = .ok bs ↔ bs.length = n ∧ encode bs = s.toLower := by
  unfold decodeExactly
  simp only
  split
  · rename_i hodd
    refine ⟨nofun, fun h => ?_⟩
    have hlength := length_utf8_of_encode_eq h.2
    omega
  · split
    · rename_i hwrong
      refine ⟨nofun, fun h => ?_⟩
      have hlength := length_utf8_of_encode_eq h.2
      rw [h.1] at hlength
      exact absurd hlength hwrong
    · rename_i heven hright
      rw [pairs_eq_ok_iff (by omega)]
      refine ⟨fun h => ⟨?_, h⟩, And.right⟩
      have hlength := length_utf8_of_encode_eq h
      omega

theorem decodeExactly_eq_error_iff {n : Nat} {s : String} {f : Fault} :
    decodeExactly n s = .error f ↔ Refused n (utf8 s) f := by
  unfold decodeExactly
  simp only
  split
  · rename_i hodd
    cases f with
    | oddLength => exact iff_of_true rfl hodd
    | wrongLength => exact iff_of_false nofun fun h => by have := h.1; omega
    | badByte b i => exact iff_of_false nofun fun h => by have := h.1; omega
  · rename_i heven
    split
    · rename_i hwrong
      cases f with
      | oddLength => exact iff_of_false nofun heven
      | wrongLength => exact iff_of_true rfl ⟨by omega, hwrong⟩
      | badByte b i => exact iff_of_false nofun fun h => hwrong h.1
    · rename_i hright
      rw [pairs_eq_error_iff (by omega)]
      cases f with
      | oddLength => exact iff_of_false (fun ⟨_, _, _, h⟩ => nomatch h) heven
      | wrongLength => exact iff_of_false (fun ⟨_, _, _, h⟩ => nomatch h) fun h => hright h.2
      | badByte b i =>
        constructor
        · rintro ⟨b', i', hbad, h⟩
          cases h
          exact ⟨not_not.mp hright, hbad⟩
        · intro h
          exact ⟨b, i, h.2, rfl⟩

end Hex

namespace Digest

/-- a text is read as the digest that is written as the text in lower case -/
theorem ofHex_eq_ok_iff {s : String} {d : Digest} : ofHex s = .ok d ↔ d.toHex = s.toLower := by
  unfold ofHex toHex
  split
  · rename_i f hf
    refine ⟨nofun, fun h => ?_⟩
    have hok := Hex.decodeExactly_eq_ok_iff.mpr ⟨d.length_bytes, h⟩
    cases hf.symm.trans hok
  · rename_i bs hbs
    obtain ⟨hlength, henc⟩ := Hex.decodeExactly_eq_ok_iff.mp hbs
    rw [ofBytes?, dif_pos hlength]
    constructor
    · intro h
      cases h
      exact henc
    · intro h
      exact congrArg Except.ok (Digest.ext (Hex.encode_inj (henc.trans h.symm)))

theorem ofHex_eq_error_iff {s : String} {f : Hex.Fault} :
    ofHex s = .error f ↔ Hex.Refused digestLength (utf8 s) f := by
  rw [← Hex.decodeExactly_eq_error_iff]
  unfold ofHex
  split
  · rename_i e he
    rw [he]
    exact ⟨fun h => congrArg Except.error (Except.error.inj h),
      fun h => congrArg Except.error (Except.error.inj h)⟩
  · rename_i bs hbs
    obtain ⟨hlength, -⟩ := Hex.decodeExactly_eq_ok_iff.mp hbs
    rw [ofBytes?, dif_pos hlength, hbs]
    constructor
    · intro h
      cases h
    · intro h
      cases h

theorem exists_ofHex_iff {s : String} :
    (∃ d, ofHex s = .ok d) ↔ s.length = 2 * digestLength ∧ ∀ c ∈ s.toList, c ∈ Hex.digitChars := by
  constructor
  · rintro ⟨d, h⟩
    obtain ⟨hchars, hlength⟩ := Hex.digits_of_encode_eq (ofHex_eq_ok_iff.mp h)
    rw [d.length_bytes] at hlength
    exact ⟨hlength, hchars⟩
  · rintro ⟨hlength, hchars⟩
    have hbytes := Hex.length_utf8_of_digits hchars
    obtain ⟨bs, -, henc⟩ :=
      Hex.pairs_of_text (s := s) (by omega) (Hex.forall_isDigit_iff.mpr hchars)
    have hlen := (Hex.digits_of_encode_eq henc).2
    exact ⟨⟨bs, by omega⟩, ofHex_eq_ok_iff.mpr henc⟩

end Digest

end ChunkLedger
