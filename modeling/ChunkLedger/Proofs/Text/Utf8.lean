import ChunkLedger.Bytes

/-!
# The bytes of a text

The UTF-8 bytes of a text are those of its characters, one after the other (`utf8_ofList`), and the
text is found again from them (`ofUtf8?_utf8`).  A character below 128 is one byte, its own number
(`charsUtf8_cons_of_lt`); the bytes of any other are all 128 or more (`le_of_mem_utf8EncodeChar`),
so they cannot be mistaken for characters below.
-/

namespace ChunkLedger

/-- the bytes of some characters -/
def charsUtf8 (cs : List Char) : Bytes := cs.flatMap String.utf8EncodeChar

@[simp] theorem charsUtf8_nil : charsUtf8 [] = [] := rfl

theorem charsUtf8_cons (c : Char) (cs : List Char) :
    charsUtf8 (c :: cs) = String.utf8EncodeChar c ++ charsUtf8 cs :=
  List.flatMap_cons

@[simp] theorem charsUtf8_append (cs ds : List Char) :
    charsUtf8 (cs ++ ds) = charsUtf8 cs ++ charsUtf8 ds :=
  List.flatMap_append

/-! ## byte arrays -/

theorem toList_loop (bs : ByteArray) (i : Nat) (r : List UInt8) :
    ByteArray.toList.loop bs i r = r.reverse ++ bs.data.toList.drop i := by
  fun_induction ByteArray.toList.loop bs i r with
  | case1 i r hi ih =>
    have hlen : i < bs.data.toList.length := by simpa using hi
    rw [ih, List.drop_eq_getElem_cons hlen]
    simp [ByteArray.get!, hi]
  | case2 i r hi =>
    have hlen : bs.data.toList.length ≤ i := by simpa using hi
    rw [List.drop_eq_nil_of_le hlen, List.append_nil]

theorem toList_eq_data (bs : ByteArray) : bs.toList = bs.data.toList := by
  show ByteArray.toList.loop bs 0 [] = _
  rw [toList_loop]
  rfl

theorem utf8_ofList (cs : List Char) : utf8 (String.ofList cs) = charsUtf8 cs := by
  show (String.ofList cs).toUTF8.toList = _
  rw [String.toUTF8_eq_toByteArray, String.toByteArray_ofList, toList_eq_data, List.utf8Encode,
    List.toList_data_toByteArray]
  rfl

/-- a text is found again from its bytes -/
theorem ofUtf8?_utf8 (s : String) : ofUtf8? (utf8 s) = some s := by
  have hdata : (⟨(utf8 s).toArray⟩ : ByteArray) = s.toByteArray := by
    show (⟨(s.toUTF8.toList).toArray⟩ : ByteArray) = _
    rw [String.toUTF8_eq_toByteArray, toList_eq_data]
  show String.fromUTF8? ⟨(utf8 s).toArray⟩ = some s
  rw [hdata, String.fromUTF8?, dif_pos s.isValidUTF8]
  rfl

/-! ## single characters -/

theorem utf8EncodeChar_of_lt {c : Char} (h : c.toNat < 128) :
    String.utf8EncodeChar c = [UInt8.ofNat c.toNat] :=
  if_pos (Nat.le_of_lt_succ h)

theorem toNat_byte {c : Char} (h : c.toNat < 256) : (UInt8.ofNat c.toNat).toNat = c.toNat := by
  rw [UInt8.toNat_ofNat']
  exact Nat.mod_eq_of_lt h

theorem charsUtf8_cons_of_lt {c : Char} (h : c.toNat < 128) (cs : List Char) :
    charsUtf8 (c :: cs) = UInt8.ofNat c.toNat :: charsUtf8 cs := by
  rw [charsUtf8_cons, utf8EncodeChar_of_lt h]
  rfl

/-- the bytes of characters below 128 are their numbers -/
theorem charsUtf8_of_lt {cs : List Char} (h : ∀ c ∈ cs, c.toNat < 128) :
    charsUtf8 cs = cs.map fun c => UInt8.ofNat c.toNat := by
  induction cs with
  | nil => rfl
  | cons c cs ih =>
    rw [charsUtf8_cons_of_lt (h c List.mem_cons_self), List.map_cons,
      ih fun d hd => h d (List.mem_cons_of_mem c hd)]

/-- a character from 128 on has no byte below 128 -/
theorem le_of_mem_utf8EncodeChar {c : Char} (h : 128 ≤ c.toNat) {b : UInt8}
    (hb : b ∈ String.utf8EncodeChar c) : 128 ≤ b := by
  have key (n : Nat) (h1 : 128 ≤ n) (h2 : n < 256) : 128 ≤ UInt8.ofNat n := by
    rw [UInt8.le_iff_toNat_le, UInt8.toNat_ofNat', Nat.mod_eq_of_lt h2]
    exact h1
  have hv : c.val.toNat = c.toNat := rfl
  unfold String.utf8EncodeChar at hb
  simp only [hv] at hb
  split at hb
  · omega
  · split at hb
    · simp only [List.mem_cons, List.not_mem_nil, or_false] at hb
      rcases hb with rfl | rfl <;> exact key _ (by omega) (by omega)
    · split at hb
      · simp only [List.mem_cons, List.not_mem_nil, or_false] at hb
        rcases hb with rfl | rfl | rfl <;> exact key _ (by omega) (by omega)
      · simp only [List.mem_cons, List.not_mem_nil, or_false] at hb
        rcases hb with rfl | rfl | rfl | rfl <;> exact key _ (by omega) (by omega)

end ChunkLedger
