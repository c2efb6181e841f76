import ChunkLedger.Proofs.Json.Line
import ChunkLedger.Proofs.Wire.Payload
import ChunkLedger.Wire.Message

/-!
# Messages are read back

A message is one line (`newline_not_mem_compact`), and from its line, whatever blanks stand around
it, its document is read (`decodeLine_around`, `decodeLine_compact`).  This gives a message with the
same payload, its fields sorted (`decodeLine_append`), unless the payload is too deep, when it is
refused (`read_docBy_of_lt`).  The payload of a message that was made for it is sorted already, and
read as one of its kind, so that the line gives the payload back (`receive_encodeLine`).
-/

namespace ChunkLedger.Wire

theorem Kind.variantNamed_name (k : Kind) :
    Json.variantNamed (all.map fun j => (j.name, j)) k.name = .ok k := by
  cases k <;> rfl

namespace Message

/-- what is made of a line: its payload, or nothing if it is blank -/
def receive (line : String) : Except Fault (Option Payload) := do
  match ← decodeLine line with
  | none => return none
  | some m => return some (← m.decodePayload)

/-! ## the record -/

def Field.content (m : Message) : (k : Field) → k.Content
  | .kind => m.kind
  | .payload => m.payload.sorted

def Field.value (m : Message) : Field → Json.Value
  | .kind => .text m.kind.name
  | .payload => m.payload

theorem toValue_eq (m : Message) :
    m.toValue = .object (layout.keys.map fun k => (layout.label k, k.value m)) := rfl

theorem label_inj (j k : Field) (h : layout.label j = layout.label k) : j = k := by
  revert h
  cases j <;> cases k <;> decide

theorem read_value {raw : String → Json.RawText} (h : Json.Faithful raw) {m : Message}
    (hd : m.payload.depth ≤ payloadRoom) (k : Field) :
    layout.read k ((k.value m).docBy raw) = .ok (k.content m) := by
  cases k with
  | kind => exact Json.readVariant_docBy h m.kind.variantNamed_name
  | payload => exact Json.readAny_docBy h hd

theorem read_docBy {raw : String → Json.RawText} (h : Json.Faithful raw) {m : Message}
    (hd : m.payload.depth ≤ payloadRoom) :
    read (m.toValue.docBy raw) = .ok ⟨m.kind, m.payload.sorted⟩ := by
  have hrecord := layout.readRecord_docBy label_inj (by decide) .text h _ (read_value h hd)
  rw [toValue_eq, read, hrecord]
  rfl

/-- a payload that is too deep is refused, after the kind has been read -/
theorem read_docBy_of_lt {raw : String → Json.RawText} (h : Json.Faithful raw) {m : Message}
    (hd : payloadRoom < m.payload.depth) :
    read (m.toValue.docBy raw) = .error (.form .malformed) := by
  have hkeys : layout.keys = [Field.kind] ++ [Field.payload] := rfl
  have hkind : ∀ k ∈ [Field.kind],
      layout.read k ((k.value m).docBy raw) = .ok (k.content m) := by
    intro k hk
    rw [List.mem_singleton.mp hk]
    exact Json.readVariant_docBy h m.kind.variantNamed_name
  have hrecord := layout.readRecord_object_of_error label_inj .text (fun k => h (layout.label k))
    (show ([Field.kind] ++ [Field.payload]).Nodup by decide) hkind (Json.readAny_docBy_of_lt h hd)
  rw [toValue_eq, Json.Value.docBy_object_map, read, hkeys, hrecord]
  rfl

/-! ## the line -/

theorem whole_toValue {m : Message} (h : m.payload.Whole) : m.toValue.Whole := by
  simp [toValue, Json.Value.Whole, Json.Value.WholeFields, h]

theorem toList_encodeLine (m : Message) : m.encodeLine.toList = m.toValue.compact ++ ['\n'] := by
  rw [encodeLine, String.toList_append, Json.Value.render, String.toList_ofList]
  rfl

theorem compact_toValue (m : Message) :
    ∃ cs, m.toValue.compact = '\x7b' :: cs ++ ['\x7d'] :=
  ⟨_, by rw [toValue, Json.Value.compact]⟩

/-- what is read of a line does not depend on blanks around it -/
theorem decodeLine_around {pre post : List Char} (hpre : ∀ c ∈ pre, Text.isBlank c = true)
    (hpost : ∀ c ∈ post, Text.isBlank c = true) (cs : List Char) :
    decodeLine (String.ofList (pre ++ cs ++ post)) = decodeLine (String.ofList cs) := by
  rw [decodeLine, decodeLine, String.toList_ofList, String.toList_ofList,
    Text.trimBlanks_append hpre hpost]

/-- the text of a message is not blank, and is read as its document -/
theorem decodeLine_compact {m : Message} (hw : m.payload.Whole) :
    decodeLine (String.ofList m.toValue.compact)
      = match read (m.toValue.docBy .written) with
        | .ok m => .ok (some m)
        | .error p => .error (.malformed p) := by
  have hread : Json.readFrom read (utf8 (String.ofList m.toValue.compact))
      = read (m.toValue.docBy .written) := Json.readFrom_render read (whole_toValue hw)
  obtain ⟨cs, hcs⟩ := m.compact_toValue
  have htrim : Text.trimBlanks m.toValue.compact = m.toValue.compact := by
    rw [hcs]
    exact Text.trimBlanks_eq_self (by decide) (by decide)
  rw [← hread, decodeLine, String.toList_ofList, htrim, hcs]
  rfl

/-- **A line is read as its message**, whatever blanks stand around it; the payload's fields are
sorted then. -/
theorem decodeLine_append {m : Message} (hw : m.payload.Whole)
    (hd : m.payload.depth ≤ payloadRoom) {pre post : List Char}
    (hpre : ∀ c ∈ pre, Text.isBlank c = true) (hpost : ∀ c ∈ post, Text.isBlank c = true) :
    decodeLine (String.ofList (pre ++ m.toValue.compact ++ post))
      = .ok (some ⟨m.kind, m.payload.sorted⟩) := by
  rw [decodeLine_around hpre hpost, decodeLine_compact hw, read_docBy Json.faithful_written hd]

theorem decodeLine_encodeLine_eq (m : Message) :
    decodeLine m.encodeLine = decodeLine (String.ofList m.toValue.compact) := by
  have hblank : ∀ c ∈ ['\n'], Text.isBlank c = true := by
    intro c hc
    rw [List.mem_singleton.mp hc]
    decide
  have h := decodeLine_around (List.forall_mem_nil _) hblank m.toValue.compact
  rw [List.nil_append, ← toList_encodeLine, String.ofList_toList] at h
  exact h

theorem decodeLine_blank {cs : List Char} (h : ∀ c ∈ cs, Text.isBlank c = true) :
    decodeLine (String.ofList cs) = .ok none := by
  rw [decodeLine, String.toList_ofList, Text.trimBlanks_eq_nil h]

/-! ## messages made for a payload -/

theorem whole_ofPayload (p : Payload) : (ofPayload p).payload.Whole :=
  Json.Value.whole_sorted _ p.whole_toValue

theorem depth_ofPayload (p : Payload) : (ofPayload p).payload.depth ≤ payloadRoom :=
  Nat.le_trans (Json.Value.depth_sorted_le _) (Nat.le_trans p.depth_toValue_le (by decide))

theorem sorted_ofPayload (p : Payload) : (ofPayload p).payload.sorted = (ofPayload p).payload :=
  Json.Value.sorted_sorted _

theorem decodePayload_ofPayload (p : Payload) : (ofPayload p).decodePayload = .ok p := by
  have hread : Json.readValue (Payload.read .value p.kind) (ofPayload p).payload = .ok p := by
    rw [Json.readValue, Json.Value.toDoc_eq_docBy]
    exact p.read_sorted Json.faithful_ofString .value
  show (ofPayload p).payloadAs p.kind = _
  rw [payloadAs, hread]

/-- **A payload is received as it was sent**, whatever blanks stand around its line. -/
theorem receive_append (p : Payload) {pre post : List Char}
    (hpre : ∀ c ∈ pre, Text.isBlank c = true) (hpost : ∀ c ∈ post, Text.isBlank c = true) :
    receive (String.ofList (pre ++ (ofPayload p).toValue.compact ++ post)) = .ok (some p) := by
  have hmessage : (⟨(ofPayload p).kind, (ofPayload p).payload.sorted⟩ : Message) = ofPayload p := by
    rw [sorted_ofPayload]
  rw [receive, decodeLine_append (whole_ofPayload p) (depth_ofPayload p) hpre hpost, hmessage]
  show (do return some (← (ofPayload p).decodePayload) : Except Fault (Option Payload)) = _
  rw [decodePayload_ofPayload]
  rfl

theorem receive_encodeLine (p : Payload) : receive (ofPayload p).encodeLine = .ok (some p) := by
  have h := receive_append p (List.forall_mem_nil _) (List.forall_mem_nil _)
  rw [List.nil_append, List.append_nil] at h
  rw [receive, decodeLine_encodeLine_eq]
  exact h

theorem receive_blank {cs : List Char} (h : ∀ c ∈ cs, Text.isBlank c = true) :
    receive (String.ofList cs) = .ok none := by
  rw [receive, decodeLine_blank h]
  rfl

end Message

end ChunkLedger.Wire
