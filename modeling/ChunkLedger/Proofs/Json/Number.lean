import ChunkLedger.Json.Token
import ChunkLedger.Proofs.Text.Utf8

/-!
# Reading the numbers that are written

A whole number is written as its decimal digits, after a minus if it is negative.  What is scanned
at such a numeral is the number, provided that the text after it does not go on with the numeral
(`Ends`).
-/

namespace ChunkLedger.Json

/-- nothing in front that would continue a numeral -/
def Ends : Bytes → Prop
  | [] => True
  | b :: _ => isDigit b = false ∧ b ≠ 46 ∧ b ≠ 101 ∧ b ≠ 69

/-- the number is no double -/
def Number.Whole : Number → Prop
  | .double _ => False
  | _ => True

/-! ## digits -/

theorem toNat_of_isDigit {c : Char} (h : c.isDigit = true) : 48 ≤ c.toNat ∧ c.toNat ≤ 57 := by
  simp only [Char.isDigit, Bool.and_eq_true, decide_eq_true_eq, ge_iff_le] at h
  exact ⟨UInt32.le_iff_toNat_le.mp h.1, UInt32.le_iff_toNat_le.mp h.2⟩

theorem toNat_byte_of_isDigit {c : Char} (h : c.isDigit = true) :
    (UInt8.ofNat c.toNat).toNat = c.toNat := by
  have hc := toNat_of_isDigit h
  exact toNat_byte (by omega)

theorem lt_of_isDigit {c : Char} (h : c.isDigit = true) : c.toNat < 128 := by
  have hc := toNat_of_isDigit h
  omega

theorem isDigit_byte {c : Char} (h : c.isDigit = true) : isDigit (UInt8.ofNat c.toNat) = true := by
  have hc := toNat_of_isDigit h
  have hb := toNat_byte_of_isDigit h
  simp only [isDigit, Bool.and_eq_true, decide_eq_true_eq, UInt8.le_iff_toNat_le, hb]
  exact hc

theorem isDigit_of_mem {n : Nat} {c : Char} (h : c ∈ Nat.toDigits 10 n) : c.isDigit = true :=
  Nat.isDigit_of_mem_toDigits (by decide) (by decide) h

/-- only zero begins with a zero -/
theorem toDigits_ne_zero_cons {n : Nat} {c : Char} {cs : List Char} :
    Nat.toDigits 10 n ≠ '0' :: c :: cs := by
  induction n using Nat.strongRecOn generalizing c cs with
  | ind n ih =>
    intro h
    by_cases hn : n < 10
    · rw [Nat.toDigits_of_lt_base hn] at h
      exact absurd (congrArg List.length h) (by simp)
    · have hle : 10 ≤ n := Nat.le_of_not_lt hn
      rw [Nat.toDigits_of_base_le (by decide) hle] at h
      -- the digits without the last are those of a tenth
      cases hq : Nat.toDigits 10 (n / 10) with
      | nil => exact Nat.toDigits_ne_nil hq
      | cons d ds =>
        rw [hq, List.cons_append] at h
        obtain ⟨rfl, hds⟩ := List.cons.inj h
        cases ds with
        | nil =>
          have hpos : 0 < n / 10 := Nat.div_pos hle (by decide)
          by_cases hq' : n / 10 < 10
          · rw [Nat.toDigits_of_lt_base hq'] at hq
            have hz : ∀ m < 10, 0 < m → [m.digitChar] ≠ ['0'] := by decide
            exact hz _ hq' hpos hq
          · have hlen := congrArg List.length hq
            have h2 := (Nat.length_toDigits_le_iff (b := 10) (n := n / 10) (k := 1) (by decide)
              (by decide)).mp (by rw [hlen]; exact Nat.le_refl 1)
            omega
        | cons e es => exact ih _ (Nat.div_lt_self (by omega) (by decide)) hq

theorem spanDigits_charsUtf8 {cs : List Char} (h : ∀ c ∈ cs, c.isDigit = true) {rest : Bytes}
    (hr : Ends rest) :
    spanDigits (charsUtf8 cs ++ rest) = (cs.map fun c => c.toNat - 48, rest) := by
  induction cs with
  | nil =>
    cases rest with
    | nil => rfl
    | cons b rest =>
      show spanDigits (b :: rest) = _
      rw [spanDigits, if_neg (by rw [hr.1]; exact Bool.false_ne_true)]
      rfl
  | cons c cs ih =>
    have hc := h c List.mem_cons_self
    rw [charsUtf8_cons_of_lt (lt_of_isDigit hc), List.cons_append, spanDigits, if_pos (isDigit_byte hc),
      ih fun d hd => h d (List.mem_cons_of_mem c hd), toNat_byte_of_isDigit hc]
    rfl

theorem value_toDigits (n : Nat) :
    Numeral.value ((Nat.toDigits 10 n).map fun c => c.toNat - 48) = n := by
  have h := Nat.ofDigitChars_ten_toDigits (n := n)
  rw [Nat.ofDigitChars_eq_foldl] at h
  rw [Numeral.value, List.foldl_map]
  simp only [Nat.mul_comm] at h
  exact h

/-! ## numerals -/

theorem scanWhole_toDigits (n : Nat) {rest : Bytes} (hr : Ends rest) :
    scanWhole (charsUtf8 (Nat.toDigits 10 n) ++ rest)
      = .ok ((Nat.toDigits 10 n).map fun c => c.toNat - 48, rest) := by
  have hspan := spanDigits_charsUtf8 (fun c hc => isDigit_of_mem (n := n) hc) hr
  have hsome : someDigits (charsUtf8 (Nat.toDigits 10 n) ++ rest)
      = .ok ((Nat.toDigits 10 n).map fun c => c.toNat - 48, rest) := by
    rw [someDigits, hspan]
    cases hd : Nat.toDigits 10 n with
    | nil => exact absurd hd Nat.toDigits_ne_nil
    | cons d ds => rfl
  rw [scanWhole, hsome]
  simp only [bind, Except.bind]
  split
  · rename_i heq
    -- a zero before another digit: there is none
    cases hd : Nat.toDigits 10 n with
    | nil => exact absurd hd Nat.toDigits_ne_nil
    | cons d ds =>
      rw [hd] at heq
      have hdig := toNat_of_isDigit (isDigit_of_mem (n := n) (c := d) (by rw [hd]; simp))
      have h0 : d.toNat - 48 = 0 := (List.cons.inj heq).1
      have hchar : d = '0' := Char.toNat_inj.mp (show d.toNat = 48 by omega)
      cases ds with
      | nil => exact absurd (congrArg List.length heq) (by simp)
      | cons e es => exact absurd (hchar ▸ hd) toDigits_ne_zero_cons
  · rfl

theorem scanFraction_of_ends {rest : Bytes} (hr : Ends rest) :
    scanFraction rest = .ok (none, rest) := by
  cases rest with
  | nil => rfl
  | cons b rest =>
    unfold scanFraction
    split
    · rename_i heq
      exact absurd (List.cons.inj heq).1 hr.2.1
    · rfl

theorem scanExponent_of_ends {rest : Bytes} (hr : Ends rest) :
    scanExponent rest = .ok (none, rest) := by
  cases rest with
  | nil => rfl
  | cons b rest =>
    unfold scanExponent
    exact if_neg (not_or.mpr ⟨hr.2.2.1, hr.2.2.2⟩)

theorem scanNumeral_toDigits (negative : Bool) (n : Nat) {rest : Bytes} (hr : Ends rest) :
    scanNumeral negative (charsUtf8 (Nat.toDigits 10 n) ++ rest)
      = .ok (⟨negative, (Nat.toDigits 10 n).map fun c => c.toNat - 48, none, none⟩, rest) := by
  simp only [scanNumeral, scanWhole_toDigits n hr, scanFraction_of_ends hr,
    scanExponent_of_ends hr, bind, Except.bind, pure, Except.pure]

theorem scanNumber_natural (n : UInt64) {rest : Bytes} (hr : Ends rest) :
    scanNumber false (charsUtf8 (Nat.toDigits 10 n.toNat) ++ rest)
      = (.number (.natural n), rest) := by
  have hlt : n.toNat < UInt64.size := n.toNat_lt_size
  rw [scanNumber, scanNumeral_toDigits false n.toNat hr]
  simp only [Numeral.toNumber?, Numeral.toWhole?, value_toDigits, Bool.false_eq_true, if_false,
    if_pos hlt, UInt64.ofNat_toNat]

theorem scanNumber_negative (m : Fin 0x8000000000000000) {rest : Bytes} (hr : Ends rest) :
    scanNumber true (charsUtf8 (Nat.toDigits 10 (m.val + 1)) ++ rest)
      = (.number (.negative m), rest) := by
  have hm := m.isLt
  rw [scanNumber, scanNumeral_toDigits true (m.val + 1) hr]
  simp only [Numeral.toNumber?, Numeral.toWhole?, value_toDigits, if_true]
  rw [dif_pos ⟨Nat.succ_pos _, hm⟩]
  rfl

end ChunkLedger.Json
