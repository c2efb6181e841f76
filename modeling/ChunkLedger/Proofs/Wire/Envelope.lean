import ChunkLedger.Proofs.Wire.Message

/-!
# Any payload on a line

A message need not have been made for a payload of its kind: what it carries may be any JSON value
without doubles, its fields in order as they are kept (`Json.Value.Ordered`).  Its line is read as
the document of the message, with room for 126 containers below it.  If the payload fits, the line
gives the message back; if not, the line is refused, though it was written without complaint
(`decodeLine_encodeLine`).
-/

namespace ChunkLedger.Wire.Message

/-- blanks before and after a line make no difference -/
theorem decodeLine_between_blanks {pre post : String}
    (hpre : ∀ c ∈ pre.toList, Text.isBlank c = true)
    (hpost : ∀ c ∈ post.toList, Text.isBlank c = true) (line : String) :
    decodeLine (pre ++ line ++ post) = decodeLine line := by
  have h := decodeLine_around hpre hpost line.toList
  rw [← String.toList_append, ← String.toList_append, String.ofList_toList,
    String.ofList_toList] at h
  exact h

/-- **A message survives its line, up to the depth that is read.**  The line of a message whose
payload is any value without doubles has one line break, at its end.  It is read as the same message
if at most 126 containers are nested in the payload, and refused as malformed if more are; and
blanks before or after it make no difference. -/
theorem decodeLine_encodeLine (m : Message) (hw : m.payload.Whole) (ho : m.payload.Ordered) :
    (∃ cs, m.encodeLine.toList = cs ++ ['\n'] ∧ '\n' ∉ cs) ∧
      (m.payload.depth ≤ 126 → decodeLine m.encodeLine = .ok (some m)) ∧
      (126 < m.payload.depth →
        decodeLine m.encodeLine = .error (.malformed (.form .malformed))) ∧
      ∀ pre post : String, (∀ c ∈ pre.toList, Text.isBlank c = true) →
        (∀ c ∈ post.toList, Text.isBlank c = true) →
          decodeLine (pre ++ m.encodeLine ++ post) = decodeLine m.encodeLine := by
  refine ⟨⟨m.toValue.compact, m.toList_encodeLine, ?_⟩, ?_, ?_, ?_⟩
  · exact Json.Value.newline_not_mem_compact _ (whole_toValue hw)
  · intro hd
    rw [decodeLine_encodeLine_eq, decodeLine_compact hw, read_docBy Json.faithful_written hd,
      Json.Value.sorted_of_ordered _ ho]
  · intro hd
    rw [decodeLine_encodeLine_eq, decodeLine_compact hw, read_docBy_of_lt Json.faithful_written hd]
  · intro pre post hpre hpost
    exact decodeLine_between_blanks hpre hpost m.encodeLine

/-! ## at the limit -/

/-- a value in `n` arrays, one inside the other -/
def nest (v : Json.Value) : Nat → Json.Value
  | 0 => v
  | n+1 => .array [nest v n]

section
variable (v : Json.Value) (n : Nat)

theorem depth_nest : (nest v n).depth = v.depth + n := by
  induction n with
  | zero => rfl
  | succ n ih =>
    rw [nest, Json.Value.depth, Json.Value.itemsDepth, Json.Value.itemsDepth, Nat.max_zero, ih]
    rfl

theorem whole_nest (h : v.Whole) : (nest v n).Whole := by
  induction n with
  | zero => exact h
  | succ n ih =>
    rw [nest, Json.Value.Whole]
    exact Json.Value.wholeItems_iff.mpr (List.forall_mem_singleton.mpr ih)

theorem ordered_nest (h : v.Ordered) : (nest v n).Ordered := by
  induction n with
  | zero => exact h
  | succ n ih =>
    rw [nest, Json.Value.Ordered, Json.Value.OrderedItems, Json.Value.OrderedItems]
    exact ⟨ih, trivial⟩

end

/-- a name of characters that have to be escaped, and the greatest and the least whole number -/
def edges : Json.Value :=
  .object [("\x00\n\"\\", .number (.natural 0xffffffffffffffff)),
    ("least", .number (.negative 0x7fffffffffffffff))]

theorem decodeLine_encodeLine_edges :
    decodeLine (encodeLine ⟨.newBlock, nest edges 125⟩) = .ok (some ⟨.newBlock, nest edges 125⟩) ∧
      decodeLine (encodeLine ⟨.newBlock, nest edges 126⟩)
        = .error (.malformed (.form .malformed)) := by
  have hdepth : edges.depth = 1 := by
    simp [edges, Json.Value.depth, Json.Value.fieldsDepth]
  have hwhole : edges.Whole := by
    simp [edges, Json.Value.Whole, Json.Value.WholeFields, Json.Number.Whole]
  have hordered : edges.Ordered := by
    rw [edges, Json.Value.Ordered, Json.Value.orderedFields_iff]
    refine ⟨List.pairwise_pair.mpr (by decide), ?_⟩
    simp [Json.Value.Ordered]
  constructor
  · exact (decodeLine_encodeLine ⟨.newBlock, nest edges 125⟩ (whole_nest edges 125 hwhole)
      (ordered_nest edges 125 hordered)).2.1 (by simp [depth_nest, hdepth])
  · exact (decodeLine_encodeLine ⟨.newBlock, nest edges 126⟩ (whole_nest edges 126 hwhole)
      (ordered_nest edges 126 hordered)).2.2.1 (by simp [depth_nest, hdepth])

end ChunkLedger.Wire.Message
