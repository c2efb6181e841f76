import ChunkLedger.Proofs.Wire.Message

/-!
# Streams of lines

A stream is what a peer writes: messages and, between them, blank lines that only keep the
connection alive.  The reader cuts the text at its line breaks and makes of every piece what it can.
It gets the payloads that were sent, in their order, and nothing from the other pieces
(`receive_stream`).
-/

namespace ChunkLedger.Wire

/-- the blanks of a line that means nothing -/
structure KeepAlive where
  chars : List Char
  blank : ∀ c ∈ chars, Text.isBlank c = true
  oneLine : '\n' ∉ chars

inductive Sent where
  | payload (p : Payload)
  | keepAlive (k : KeepAlive)

namespace Sent

def line : Sent → String
  | .payload p => (Message.ofPayload p).encodeLine
  | .keepAlive k => String.ofList (k.chars ++ ['\n'])

/-- what the reader should get -/
def content : Sent → Option Payload
  | .payload p => some p
  | .keepAlive _ => none

end Sent

def stream (xs : List Sent) : String := String.join (xs.map Sent.line)

/-- a text cut at its line breaks; after the last one comes a piece too -/
def pieces (text : String) : List String := (text.toList.splitOn '\n').map String.ofList

theorem Message.newline_not_mem_ofPayload (p : Payload) :
    '\n' ∉ (ofPayload p).toValue.compact :=
  Json.Value.newline_not_mem_compact _ (whole_toValue (whole_ofPayload p))

/-- what is sent is a piece without line breaks, and a line break -/
theorem Sent.exists_piece (x : Sent) :
    ∃ cs, x.line.toList = cs ++ ['\n'] ∧ '\n' ∉ cs ∧
      Message.receive (String.ofList cs) = .ok x.content := by
  cases x with
  | payload p =>
    have hblank : ∀ c ∈ ([] : List Char), Text.isBlank c = true := List.forall_mem_nil _
    have hreceive := Message.receive_append p hblank hblank
    rw [List.nil_append, List.append_nil] at hreceive
    exact ⟨_, Message.toList_encodeLine _, Message.newline_not_mem_ofPayload p, hreceive⟩
  | keepAlive k =>
    exact ⟨k.chars, String.toList_ofList, k.oneLine, Message.receive_blank k.blank⟩

theorem toList_stream_cons (x : Sent) (xs : List Sent) :
    (stream (x :: xs)).toList = x.line.toList ++ (stream xs).toList := by
  rw [stream, String.toList_join, List.map_cons, List.flatMap_cons, stream, String.toList_join]

theorem splitOn_line {cs : List Char} (h : '\n' ∉ cs) (rest : List Char) :
    (cs ++ '\n' :: rest).splitOn '\n' = cs :: rest.splitOn '\n' := by
  apply List.splitOnP_append_cons_of_forall_mem
  · intro c hc
    rw [beq_eq_false_iff_ne]
    rintro rfl
    exact h hc
  · rfl

/-- **A stream is received as it was sent.**  A message is written as a line, with one line break at
its end; and of the pieces of a stream the messages give their payloads, in order, while the blank
lines and the end of the text give nothing and no piece is refused. -/
theorem receive_stream (xs : List Sent) :
    (∀ p : Payload, ∃ cs, (Message.ofPayload p).encodeLine.toList = cs ++ ['\n'] ∧ '\n' ∉ cs) ∧
    (pieces (stream xs)).map Message.receive = xs.map (fun x => .ok x.content) ++ [.ok none] := by
  constructor
  · intro p
    exact ⟨_, Message.toList_encodeLine _, Message.newline_not_mem_ofPayload p⟩
  · induction xs with
    | nil =>
      have h := Message.receive_blank (List.forall_mem_nil _)
      show [Message.receive (String.ofList [])] = [.ok none]
      rw [h]
    | cons x xs ih =>
      obtain ⟨cs, hline, hcs, hreceive⟩ := x.exists_piece
      rw [pieces, toList_stream_cons, hline, List.append_assoc, List.singleton_append,
        splitOn_line hcs, List.map_cons, List.map_cons, hreceive, List.map_cons, List.cons_append]
      exact congrArg _ ih

end ChunkLedger.Wire
