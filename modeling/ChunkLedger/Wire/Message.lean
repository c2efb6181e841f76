import ChunkLedger.Json.Printer
import ChunkLedger.Text.Blank
import ChunkLedger.Wire.Payload

/-!
# Messages

Peers send each other messages, one per line: a JSON object of a kind and a payload.  The payload is
kept as any JSON value, its fields sorted, until someone asks for what the kind promises.  Blank
lines mean nothing.
-/

namespace ChunkLedger.Wire

structure Message where
  kind : Kind
  payload : Json.Value

namespace Message

inductive Fault where
  | malformed (p : Json.Problem)
  /-- the payload is not what a message of this kind carries -/
  | payload (kind : Kind) (p : Json.Problem)

/-- the message that carries `p` -/
def ofPayload (p : Payload) : Message := ⟨p.kind, p.toValue.sorted⟩

/-! ## lines -/

inductive Field where
  | kind | payload
deriving DecidableEq

@[reducible] def Field.Content : Field → Type
  | .kind => Kind
  | .payload => Json.Value

/-- how many containers may be nested in a payload; the message is one more -/
def payloadRoom : Nat := 126

def layout : Json.Layout Field Field.Content where
  name := "Message"
  keys := [.kind, .payload]
  mem_keys k := by cases k <;> decide
  label
    | .kind => "type"
    | .payload => "payload"
  read
    | .kind => Kind.read
    | .payload => Json.readAny payloadRoom
  absent _ := none

def read : Json.Reader Message := fun d => do
  let f ← layout.readRecord .text d
  return ⟨f .kind, f .payload⟩

def toValue (m : Message) : Json.Value :=
  .object [("type", .text m.kind.name), ("payload", m.payload)]

def encodeLine (m : Message) : String := m.toValue.render ++ "\n"

/-- the message on a line; none if the line is blank -/
def decodeLine (line : String) : Except Fault (Option Message) :=
  match Text.trimBlanks line.toList with
  | [] => .ok none
  | cs =>
    match Json.readFrom read (utf8 (String.ofList cs)) with
    | .ok m => .ok (some m)
    | .error p => .error (.malformed p)

/-! ## payloads -/

def payloadAs (m : Message) (k : Kind) : Except Fault Payload :=
  match Json.readValue (Payload.read .value k) m.payload with
  | .ok p => .ok p
  | .error p => .error (.payload m.kind p)

def decodePayload (m : Message) : Except Fault Payload := m.payloadAs m.kind

@[simp] theorem kind_ofPayload (p : Payload) : (ofPayload p).kind = p.kind := rfl

end Message

end ChunkLedger.Wire
