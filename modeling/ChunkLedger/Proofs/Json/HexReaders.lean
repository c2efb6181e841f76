import ChunkLedger.Block.Record
import ChunkLedger.Proofs.Hash.HexTexts
import ChunkLedger.Proofs.Json.Record

/-!
# The readers of hexadecimal texts

Three readers take bytes out of a text in a document: of a digest, of a digest that may be missing
and of bytes of any number.  Each decodes the text and then reads it as the hash does, and has no
other way to fail (`Json.ofHex_eq_error_iff`); the empty text is no digest, no bytes, or the missing
digest (`Json.readDigest?_eq_ok_iff`).

So what each accepts, as what, and what is reported of the rest is known for every text
(`Json.readHex_exact`).
-/

namespace ChunkLedger

theorem toLower_eq_empty_iff {s : String} : s.toLower = "" ↔ s = "" := by
  rw [← String.toList_eq_nil_iff, ← String.toList_eq_nil_iff, Hex.toList_toLower]
  exact List.map_eq_nil_iff

namespace Json

section
variable {t : RawText} {s : String} (h : t.decode = .ok s)
include h

theorem readString_of_decode : readString (.text t) = .ok s := by
  rw [readString, readText, h]
  rfl

theorem readBytes_of_decode : readBytes (.text t) = ofHex (Hex.decode s) := by
  rw [readBytes, readString_of_decode h]
  rfl

theorem readDigest_of_decode : readDigest (.text t) = ofHex (Digest.ofHex s) := by
  rw [readDigest, readString_of_decode h]
  rfl

theorem readDigest?_of_decode : readDigest? (.text t) =
    if s = "" then .ok none else (readDigest (.text t)).map some := by
  rw [readDigest?_text, readString_of_decode h, readDigest_of_decode h]
  show (if s = "" then pure none else do
    let d ← ofHex (Digest.ofHex s)
    return some d : Except Problem (Option Digest)) = _
  cases ofHex (Digest.ofHex s) <;> rfl

end

theorem ofHex_eq_ok_iff {α : Type} {r : Except Hex.Fault α} {a : α} :
    ofHex r = .ok a ↔ r = .ok a := by
  cases r with
  | ok b => exact ⟨fun h => congrArg Except.ok (Except.ok.inj h), fun h => by rw [h]; rfl⟩
  | error f => exact ⟨nofun, nofun⟩

theorem ofHex_eq_error_iff {α : Type} {r : Except Hex.Fault α} {e : Problem} :
    ofHex r = .error e ↔ ∃ f, e = .content (.hex f) ∧ r = .error f := by
  cases r with
  | ok b => exact ⟨nofun, fun ⟨_, _, h⟩ => nomatch h⟩
  | error f =>
    constructor
    · intro h
      exact ⟨f, (Except.error.inj h).symm, rfl⟩
    · rintro ⟨f', rfl, h⟩
      cases h
      rfl

section
variable {t : RawText} {s : String} (h : t.decode = .ok s)
include h

/-- an optional digest is read from the empty text, as none, and from any text of a digest -/
theorem readDigest?_eq_ok_iff {o : Option Digest} : readDigest? (.text t) = .ok o ↔
    s = "" ∧ o = none ∨ ∃ d, o = some d ∧ readDigest (.text t) = .ok d := by
  rw [readDigest?_of_decode h]
  split
  · rename_i hs
    constructor
    · intro hn
      exact .inl ⟨hs, (Except.ok.inj hn).symm⟩
    · rintro (⟨-, rfl⟩ | ⟨d, -, hd⟩)
      · rfl
      · -- the empty text is not written of any digest
        rw [readDigest_of_decode h, ofHex_eq_ok_iff, Digest.ofHex_eq_ok_iff,
          toLower_eq_empty_iff.mpr hs] at hd
        exact absurd hd d.toHex_ne_empty
  · rename_i hs
    cases readDigest (.text t) with
    | error e =>
      refine iff_of_false nofun ?_
      rintro (⟨he, -⟩ | ⟨d, -, hd⟩)
      · exact hs he
      · cases hd
    | ok d =>
      constructor
      · intro ho
        exact .inr ⟨d, (Except.ok.inj ho).symm, rfl⟩
      · rintro (⟨he, -⟩ | ⟨d', rfl, hd⟩)
        · exact absurd he hs
        · cases hd
          rfl

/-- what is no optional digest is refused as no digest is -/
theorem readDigest?_eq_error_iff {e : Problem} :
    readDigest? (.text t) = .error e ↔ s ≠ "" ∧ readDigest (.text t) = .error e := by
  rw [readDigest?_of_decode h]
  split
  · rename_i hs
    exact iff_of_false nofun fun he => he.1 hs
  · rename_i hs
    cases readDigest (.text t) with
    | error f =>
      constructor
      · intro he
        exact ⟨hs, congrArg Except.error (Except.error.inj he)⟩
      · rintro ⟨-, he⟩
        exact congrArg Except.error (Except.error.inj he)
    | ok d => exact iff_of_false nofun fun he => nomatch he.2

theorem readDigest?_eq_ok_iff_prevText {o : Option Digest} :
    readDigest? (.text t) = .ok o ↔ Block.prevText o = s.toLower := by
  rw [readDigest?_eq_ok_iff h]
  simp only [readDigest_of_decode h, ofHex_eq_ok_iff, Digest.ofHex_eq_ok_iff]
  constructor
  · rintro (⟨rfl, rfl⟩ | ⟨d, rfl, hd⟩)
    · exact (toLower_eq_empty_iff.mpr rfl).symm
    · exact hd
  · intro ho
    cases o with
    | none => exact .inl ⟨toLower_eq_empty_iff.mp ho.symm, rfl⟩
    | some d => exact .inr ⟨d, rfl, ho⟩

end

/-- **The readers accept exactly their texts, and in one form only.**  Here `t` is a text as it
stands in a document, with or without escapes, and `s` the text that is meant.  What is written of
a digest, an optional digest or a byte string is read back.  A digest is read from 64 digits and
nothing else, a byte string from any even number of digits, and an optional digest from nothing at
all or a digest; what is read is always written as the given text in lower case.  If a digest is
refused an odd length is the first thing to be reported, then a wrong one, then the first byte that
is no digit; the same is reported of a text that is to be an optional digest. -/
theorem readHex_exact {t : RawText} {s : String} (h : t.decode = .ok s) :
    ((∀ d : Digest, s = d.toHex → readDigest (.text t) = .ok d) ∧
      (∀ o, s = Block.prevText o → readDigest? (.text t) = .ok o) ∧
      ∀ bs, s = Hex.encode bs → readBytes (.text t) = .ok bs) ∧
    ((∃ d, readDigest (.text t) = .ok d) ↔
      s.length = 64 ∧ ∀ c ∈ s.toList, c ∈ Hex.digitChars) ∧
    ((∃ bs, readBytes (.text t) = .ok bs) ↔
      (utf8 s).length % 2 = 0 ∧ ∀ b ∈ utf8 s, Hex.IsDigit b) ∧
    (∀ o, readDigest? (.text t) = .ok o ↔
      s = "" ∧ o = none ∨ ∃ d, o = some d ∧ readDigest (.text t) = .ok d) ∧
    ((∀ d, readDigest (.text t) = .ok d ↔ d.toHex = s.toLower) ∧
      (∀ o, readDigest? (.text t) = .ok o ↔ Block.prevText o = s.toLower) ∧
      ∀ bs, readBytes (.text t) = .ok bs ↔ Hex.encode bs = s.toLower) ∧
    ∀ e, (readDigest (.text t) = .error e ↔
        ∃ f, e = .content (.hex f) ∧ Hex.Refused digestLength (utf8 s) f) ∧
      (readDigest? (.text t) = .error e ↔ s ≠ "" ∧ readDigest (.text t) = .error e) := by
  have hdigest (d : Digest) : readDigest (.text t) = .ok d ↔ d.toHex = s.toLower := by
    rw [readDigest_of_decode h, ofHex_eq_ok_iff, Digest.ofHex_eq_ok_iff]
  have hbytes (bs : Bytes) : readBytes (.text t) = .ok bs ↔ Hex.encode bs = s.toLower := by
    rw [readBytes_of_decode h, ofHex_eq_ok_iff, Hex.decode_eq_ok_iff]
  have hread (d : Digest) (hs : s = d.toHex) : readDigest (.text t) = .ok d := by
    rw [readDigest_of_decode h, ofHex_eq_ok_iff, hs, d.ofHex_toHex]
  refine ⟨⟨hread, ?_, ?_⟩, ?_, ?_, fun o => readDigest?_eq_ok_iff h,
    ⟨hdigest, fun o => readDigest?_eq_ok_iff_prevText h, hbytes⟩, ?_⟩
  · intro o hs
    cases o with
    | none => exact (readDigest?_eq_ok_iff h).mpr (.inl ⟨hs, rfl⟩)
    | some d => exact (readDigest?_eq_ok_iff h).mpr (.inr ⟨d, rfl, hread d hs⟩)
  · intro bs hs
    rw [readBytes_of_decode h, ofHex_eq_ok_iff, hs, Hex.decode_encode]
  · simp only [readDigest_of_decode h, ofHex_eq_ok_iff]
    exact Digest.exists_ofHex_iff
  · simp only [readBytes_of_decode h, ofHex_eq_ok_iff]
    exact Hex.exists_decode_iff
  · intro e
    refine ⟨?_, readDigest?_eq_error_iff h⟩
    rw [readDigest_of_decode h, ofHex_eq_error_iff]
    simp only [Digest.ofHex_eq_error_iff]

/-- the text `Ab`, its first letter as an escape -/
def escapedByte : RawText := ⟨[.unit 0x41, .byte 98], none⟩

theorem readHex_exact_escapedByte :
    escapedByte.decode = .ok "Ab" ∧ readBytes (.text escapedByte) = .ok [0xab] ∧
      readDigest (.text escapedByte) = .error (.content (.hex .wrongLength)) ∧
      ¬ ∃ o, readDigest? (.text escapedByte) = .ok o := by
  have h : escapedByte.decode = .ok "Ab" := by decide +kernel
  obtain ⟨-, haccepted, -, hopt, ⟨-, -, hbytes⟩, hrefused⟩ := readHex_exact h
  have hlength : "Ab".length = 2 := rfl
  refine ⟨h, (hbytes [0xab]).mpr (by decide +kernel), ?_, ?_⟩
  · have hwrong : (utf8 "Ab").length % 2 = 0 ∧ (utf8 "Ab").length ≠ 2 * digestLength := by
      decide +kernel
    exact (hrefused _).1.mpr ⟨.wrongLength, rfl, hwrong⟩
  · rintro ⟨o, ho⟩
    rcases (hopt o).mp ho with ⟨hs, -⟩ | ⟨d, -, hd⟩
    · exact absurd hs (by decide)
    · have hlen := (haccepted.mp ⟨d, hd⟩).1
      rw [hlength] at hlen
      exact absurd hlen (by decide)

end Json

end ChunkLedger
