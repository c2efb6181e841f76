import ChunkLedger.Mining.Search

/-!
# The nonces of one worker

`t.InVain w l` says that the nonces `l`, last first, are the first ones of the row `w`,
`w + stride`, `w + 2 * stride`, ... and that none of them helped.  Where a worker of that row can be
after them is `t.At C w l`: a search that begins at the start of the row (`at_start`) and probes one
nonce after another (`At.probe`) always is at such a place.

`C` stands for whatever a worker has to know before it gives up.
-/

namespace ChunkLedger.Mining

theorem toNat_ofNat_of_le {k : Nat} {limit : UInt64} (h : k ≤ limit.toNat) :
    (UInt64.ofNat k).toNat = k := by
  have hlt := limit.toNat_lt
  rw [UInt64.toNat_ofNat']
  exact Nat.mod_eq_of_lt (by omega)

namespace Task

variable {t : Task} {C : Prop} {w : Nat} {l : List UInt64} {n : UInt64}

theorem qualifies_iff : t.qualifies n = true ↔ (t.block.hashWithNonce n).toNat ≤ t.target :=
  Difficulty.meetsTarget_iff

/-- the nonces `l`, last first, are the first ones of row `w`, and none of them qualifies -/
def InVain (t : Task) (w : Nat) : List UInt64 → Prop
  | [] => True
  | n :: l => n.toNat = w + l.length * t.stride ∧ n ≤ t.limit ∧ t.qualifies n = false ∧ t.InVain w l

/-- where a worker of row `w` can be after the nonces `l`, last first -/
inductive At (t : Task) (C : Prop) (w : Nat) : List UInt64 → Progress → Prop
  | next {n : UInt64} {l : List UInt64} : t.InVain w l → n.toNat = w + l.length * t.stride →
      n ≤ t.limit → At t C w l (.next n)
  | found {n : UInt64} {l : List UInt64} : t.InVain w l → n.toNat = w + l.length * t.stride →
      n ≤ t.limit → t.qualifies n = true →
      At t C w (n :: l) (.stopped (.found n (t.block.hashWithNonce n)))
  | exhausted {l : List UInt64} : t.InVain w l → t.limit.toNat < w + l.length * t.stride →
      At t C w l (.stopped .exhausted)
  | cancelled {l : List UInt64} : t.InVain w l → C → At t C w l (.stopped .cancelled)

theorem At.of_next (h : t.At C w l (.next n)) :
    t.InVain w l ∧ n.toNat = w + l.length * t.stride ∧ n ≤ t.limit := by
  cases h with
  | next hl hn hle => exact ⟨hl, hn, hle⟩

theorem probe_of_qualifies (h : t.qualifies n = true) :
    t.probe n = .stopped (.found n (t.block.hashWithNonce n)) := by
  unfold probe
  exact if_pos h

theorem probe_of_not_qualifies (h : t.qualifies n = false) :
    t.probe n = match t.next? n with
      | some m => .next m
      | none => .stopped .exhausted := by
  unfold probe
  exact if_neg (by rw [show Difficulty.meetsTarget _ _ = false from h]; exact Bool.false_ne_true)

/-- a worker starts at the first nonce of its row -/
theorem at_start (t : Task) (C : Prop) (w : Nat) : t.At C w [] (t.start w) := by
  unfold start
  split
  · rename_i h
    have e := toNat_ofNat_of_le h
    exact .next trivial (by simpa using e) (UInt64.le_iff_toNat_le.mpr (by omega))
  · rename_i h
    exact .exhausted trivial (by simp; omega)

/-- one hash leads from a place to a place -/
theorem At.probe (h : t.At C w l (.next n)) : t.At C w (n :: l) (t.probe n) := by
  obtain ⟨hl, hn, hle⟩ := h.of_next
  cases hq : t.qualifies n with
  | true =>
    rw [probe_of_qualifies hq]
    exact .found hl hn hle hq
  | false =>
    have hv : t.InVain w (n :: l) := ⟨hn, hle, hq, hl⟩
    have hs : w + (n :: l).length * t.stride = n.toNat + t.stride := by
      rw [List.length_cons, Nat.succ_mul]
      omega
    rw [probe_of_not_qualifies hq]
    cases hm : t.next? n with
    | some m =>
      obtain ⟨em, hml⟩ := toNat_of_next? hm
      exact .next hv (em.trans hs.symm) (UInt64.le_iff_toNat_le.mpr hml)
    | none =>
      have hlt := next?_eq_none_iff.mp hm
      exact .exhausted hv (by omega)

/-- a place before a nonce stays one if the worker gives up there -/
theorem At.giveUp (h : t.At C w l (.next n)) (hc : C) : t.At C w l (.stopped .cancelled) :=
  .cancelled h.of_next.1 hc

/-! ## the nonces of a row -/

theorem map_toNat_cons
    (hl : l.reverse.map UInt64.toNat = (List.range l.length).map fun k => w + k * t.stride)
    (hn : n.toNat = w + l.length * t.stride) :
    (n :: l).reverse.map UInt64.toNat
      = (List.range (n :: l).length).map fun k => w + k * t.stride := by
  rw [List.reverse_cons, List.map_append, hl, List.length_cons, List.range_succ,
    List.map_append, List.map_singleton, List.map_singleton, hn]

theorem InVain.map_toNat (h : t.InVain w l) :
    l.reverse.map UInt64.toNat = (List.range l.length).map fun k => w + k * t.stride := by
  induction l with
  | nil => rfl
  | cons n l ih =>
    obtain ⟨hn, -, -, hl⟩ := h
    exact map_toNat_cons (ih hl) hn

theorem InVain.of_mem (h : t.InVain w l) (hn : n ∈ l) :
    n ≤ t.limit ∧ t.qualifies n = false := by
  induction l with
  | nil => cases hn
  | cons m l ih =>
    obtain ⟨-, hle, hq, hl⟩ := h
    rcases List.mem_cons.mp hn with rfl | hn
    · exact ⟨hle, hq⟩
    · exact ih hl hn

theorem InVain.mem_iff (h : t.InVain w l) :
    n ∈ l ↔ ∃ k < l.length, n.toNat = w + k * t.stride := by
  have hm : n ∈ l ↔ n.toNat ∈ l.reverse.map UInt64.toNat := by
    rw [List.mem_map]
    constructor
    · intro hn
      exact ⟨n, List.mem_reverse.mpr hn, rfl⟩
    · rintro ⟨m, hm, e⟩
      rw [← UInt64.toNat_inj.mp e]
      exact List.mem_reverse.mp hm
  rw [hm, h.map_toNat, List.mem_map]
  constructor
  · rintro ⟨k, hk, e⟩
    exact ⟨k, List.mem_range.mp hk, e.symm⟩
  · rintro ⟨k, hk, e⟩
    exact ⟨k, List.mem_range.mpr hk, e.symm⟩

/-- no nonce of a row is tried twice -/
theorem InVain.nodup (h : t.InVain w l) : l.Nodup := by
  induction l with
  | nil => exact List.nodup_nil
  | cons n l ih =>
    obtain ⟨hn, -, -, hl⟩ := h
    refine List.nodup_cons.mpr ⟨?_, ih hl⟩
    intro hmem
    obtain ⟨k, hk, e⟩ := hl.mem_iff.mp hmem
    have hks : k * t.stride < l.length * t.stride := Nat.mul_lt_mul_of_pos_right hk t.stride_pos
    omega

theorem At.nodup {p : Progress} (h : t.At C w l p) : l.Nodup := by
  cases h with
  | next hl _ _ => exact hl.nodup
  | exhausted hl _ => exact hl.nodup
  | cancelled hl _ => exact hl.nodup
  | found hl hn hle hq =>
    refine List.nodup_cons.mpr ⟨?_, hl.nodup⟩
    intro hmem
    have hf := (hl.of_mem hmem).2
    rw [hq] at hf
    cases hf

/-- the nonces of the workers' rows, and no others, are those of one remainder -/
theorem row_iff {m : Nat} (hw : w < t.stride) :
    m % t.stride = w ↔ ∃ k, m = w + k * t.stride := by
  constructor
  · rintro rfl
    exact ⟨m / t.stride, by rw [Nat.mul_comm, Nat.mod_add_div]⟩
  · rintro ⟨k, rfl⟩
    rw [Nat.add_mul_mod_self_right, Nat.mod_eq_of_lt hw]

/-- a worker that is exhausted has tried its row up to the limit, and in vain -/
theorem At.of_exhausted (h : t.At C w l (.stopped .exhausted)) (hw : w < t.stride)
    (hr : n.toNat % t.stride = w) :
    (n ∈ l ↔ n ≤ t.limit) ∧ (n ≤ t.limit → t.qualifies n = false) := by
  cases h with
  | exhausted hl hlt =>
    have hmem (hn : n ≤ t.limit) : n ∈ l := by
      obtain ⟨k, e⟩ := (row_iff hw).mp hr
      have hle := UInt64.le_iff_toNat_le.mp hn
      have hks : k * t.stride < l.length * t.stride := by omega
      exact hl.mem_iff.mpr ⟨k, Nat.lt_of_mul_lt_mul_right hks, e⟩
    exact ⟨⟨fun hn => (hl.of_mem hn).1, hmem⟩, fun hn => (hl.of_mem (hmem hn)).2⟩

/-- what a worker has found is the first of its row that qualifies -/
theorem At.of_found {d : Digest} (h : t.At C w l (.stopped (.found n d))) (hw : w < t.stride) :
    n.toNat % t.stride = w ∧ n ≤ t.limit ∧ d = t.block.hashWithNonce n ∧ t.qualifies n = true ∧
      ∀ m < n, m.toNat % t.stride = w → t.qualifies m = false := by
  cases h with
  | @found _ l hl hn hle hq =>
    refine ⟨(row_iff hw).mpr ⟨_, hn⟩, hle, rfl, hq, ?_⟩
    intro m hm hr
    obtain ⟨k, hk⟩ := (row_iff hw).mp hr
    have hlt := UInt64.lt_iff_toNat_lt.mp hm
    have hks : k * t.stride < l.length * t.stride := by omega
    exact (hl.of_mem (hl.mem_iff.mpr ⟨k, Nat.lt_of_mul_lt_mul_right hks, hk⟩)).2

theorem At.of_cancelled (h : t.At C w l (.stopped .cancelled)) : C := by
  cases h with
  | cancelled _ hc => exact hc

end Task

end ChunkLedger.Mining
