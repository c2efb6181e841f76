import ChunkLedger.Proofs.Chain.Replay
import ChunkLedger.Proofs.Chain.Tamper
import ChunkLedger.Proofs.Wire.Message
import Mathlib.Order.Monotone.Basic

/-!
# Following by announcements

One node adds blocks to a chain and announces each in a message; a peer that starts from the same
chain hears the announcements in any order, some of them often and some never, and adds what fits.

The indices of the blocks rise by one, so after `k` of them the peer takes the next one and no
other (`hear_next`, `hear_other`).  Its chain is therefore always the first chain and some of the
first blocks (`known`), never loses one, and is the announced chain as soon as all announcements
have been heard in order (`listen_announced`).
-/

namespace ChunkLedger.Wire

def announce (b : Block) : String := (Message.ofPayload (.newBlock b)).encodeLine

/-- why a line does not make the chain longer -/
inductive Refusal where
  | line (f : Message.Fault)
  | block (f : Chain.Fault)
  /-- a blank line, or a message that is no announcement -/
  | noBlock

/-- the peer's chain with the block that a line announces -/
def hear (d : Nat) (c : Chain) (line : String) : Except Refusal Chain :=
  match Message.receive line with
  | .error f => .error (.line f)
  | .ok (some (.newBlock b)) =>
    match c.add b d with
    | .ok c => .ok c
    | .error f => .error (.block f)
  | .ok _ => .error .noBlock

/-- the peer's chain after some lines; it stays as it is when a line is refused -/
def listen (d : Nat) : Chain → List String → Chain
  | c, [] => c
  | c, line :: lines =>
    match hear d c line with
    | .ok c => listen d c lines
    | .error _ => listen d c lines

/-- `c` followed by the first `k` of the blocks -/
def known (c : Chain) (bs : List (Block × Nat)) (k : Nat) : Chain :=
  (bs.take k).foldl (fun c p => c.append p.1) c

theorem hear_announce (d : Nat) (c : Chain) (b : Block) :
    hear d c (announce b) = match c.add b d with
      | .ok c => .ok c
      | .error f => .error (.block f) := by
  rw [hear, announce, Message.receive_encodeLine]

theorem listen_cons_ok {d : Nat} {c c' : Chain} {line : String} (h : hear d c line = .ok c')
    (lines : List String) : listen d c (line :: lines) = listen d c' lines := by
  rw [listen, h]

theorem listen_cons_error {d : Nat} {c : Chain} {line : String} {f : Refusal}
    (h : hear d c line = .error f) (lines : List String) :
    listen d c (line :: lines) = listen d c lines := by
  rw [listen, h]

/-! ## the blocks that were accepted -/

theorem known_succ {c : Chain} {bs : List (Block × Nat)} {k : Nat} {p : Block × Nat}
    (h : bs[k]? = some p) : known c bs (k + 1) = (known c bs k).append p.1 := by
  rw [known, List.take_add_one, h, List.foldl_append]
  rfl

theorem known_of_le {c : Chain} {bs : List (Block × Nat)} {k : Nat} (h : bs.length ≤ k) :
    known c bs k = known c bs bs.length := by
  rw [known, known, List.take_of_length_le h, List.take_length]

/-- blocks that were added one by one were each checked against the chain before them -/
theorem addAll_eq_ok {c a : Chain} {bs : List (Block × Nat)} (h : c.addAll bs = .ok a) :
    a = known c bs bs.length ∧
      ∀ (k : Nat) (p : Block × Nat), bs[k]? = some p →
        p.1.validate (known c bs k).tip p.2 = .ok () := by
  induction bs generalizing c with
  | nil =>
    cases h
    exact ⟨rfl, fun k p hp => by cases hp⟩
  | cons q bs ih =>
    obtain ⟨b, d⟩ := q
    obtain ⟨hv, hrest⟩ := Chain.addAll_cons_eq_ok.mp h
    obtain ⟨ha, hvalid⟩ := ih hrest
    refine ⟨ha, ?_⟩
    intro k p hp
    cases k with
    | zero => cases hp; exact hv
    | succ k => exact hvalid k p hp

section
variable {c a : Chain} {bs : List (Block × Nat)} (ha : c.addAll bs = .ok a)
include ha

/-- the indices of accepted blocks rise by one -/
theorem index_known {k : Nat} (hk : k ≤ bs.length) :
    (known c bs k).tip.index.toNat = c.tip.index.toNat + k := by
  induction k with
  | zero => rfl
  | succ k ih =>
    have hp := List.getElem?_eq_getElem hk
    obtain ⟨-, -, hnext, -⟩ := Block.validate_eq_ok_iff.mp ((addAll_eq_ok ha).2 k _ hp)
    rw [known_succ hp, Chain.tip_append, ← Block.nextIndex?_eq_some_iff.mp hnext,
      ih (Nat.le_of_succ_le hk)]
    rfl

theorem index_of_accepted {j : Nat} {p : Block × Nat} (hp : bs[j]? = some p) :
    p.1.index.toNat = c.tip.index.toNat + (j + 1) := by
  rw [← index_known ha (List.getElem?_eq_some_iff.mp hp).1, known_succ hp, Chain.tip_append]

/-! ## hearing one announcement -/

variable {d : Nat} (hd : ∀ p ∈ bs, d ≤ p.2)

include hd in
/-- after the first `k` blocks the next one is taken -/
theorem hear_next {k : Nat} {p : Block × Nat} (hp : bs[k]? = some p) :
    hear d (known c bs k) (announce p.1) = .ok (known c bs (k + 1)) := by
  have hv := Block.validate_of_le (hd p (List.mem_of_getElem? hp)) ((addAll_eq_ok ha).2 k p hp)
  rw [hear_announce, Chain.add, hv, known_succ hp]

/-- after the first `k` blocks no other one is taken -/
theorem hear_other {j k : Nat} {p : Block × Nat} (hp : bs[j]? = some p) (hk : k ≤ bs.length)
    (hne : j ≠ k) : ∃ f, hear d (known c bs k) (announce p.1) = .error f := by
  rw [hear_announce]
  cases hadd : (known c bs k).add p.1 d with
  | error f => exact ⟨_, rfl⟩
  | ok c' =>
    obtain ⟨-, -, hnext, -⟩ := Block.validate_eq_ok_iff.mp (Chain.add_eq_ok hadd).1
    have hindex := Block.nextIndex?_eq_some_iff.mp hnext
    rw [index_known ha hk, index_of_accepted ha hp] at hindex
    omega

/-! ## hearing many -/

include hd

/-- what an announcement does after the first `k` blocks -/
theorem hear_cases {line : String} (hl : ∃ p ∈ bs, line = announce p.1) {k : Nat}
    (hk : k ≤ bs.length) :
    (k < bs.length ∧ hear d (known c bs k) line = .ok (known c bs (k + 1))) ∨
      ∃ f, hear d (known c bs k) line = .error f := by
  obtain ⟨p, hmem, rfl⟩ := hl
  obtain ⟨j, hp⟩ := List.mem_iff_getElem?.mp hmem
  by_cases hj : j = k
  · subst hj
    exact .inl ⟨(List.getElem?_eq_some_iff.mp hp).1, hear_next ha hd hp⟩
  · exact .inr (hear_other ha hp hk hj)

/-- the count of blocks that the peer has after an announcement -/
theorem exists_next {line : String} (hl : ∃ p ∈ bs, line = announce p.1) {k : Nat}
    (hk : k ≤ bs.length) :
    ∃ next, k ≤ next ∧ next ≤ bs.length ∧
      (∀ lines, listen d (known c bs k) (line :: lines) = listen d (known c bs next) lines) ∧
      ((hear d (known c bs k) line = .ok (known c bs next) ∧ next = k + 1) ∨
        ((∃ f, hear d (known c bs k) line = .error f) ∧ next = k)) := by
  rcases hear_cases ha hd hl hk with ⟨hlt, hok⟩ | ⟨f, herr⟩
  · exact ⟨k + 1, Nat.le_succ k, hlt, listen_cons_ok hok, .inl ⟨hok, rfl⟩⟩
  · exact ⟨k, Nat.le_refl k, hk, listen_cons_error herr, .inr ⟨⟨f, herr⟩, rfl⟩⟩

/-- After each line the peer has some of the first blocks; a line adds the next one, or it is
refused and adds none. -/
theorem exists_counts {lines : List String} (hl : ∀ l ∈ lines, ∃ p ∈ bs, l = announce p.1)
    {k : Nat} (hk : k ≤ bs.length) :
    ∃ count : Nat → Nat, count 0 = k ∧ ∀ i, count i ≤ bs.length ∧ count i ≤ count (i + 1) ∧
      listen d (known c bs k) (lines.take i) = known c bs (count i) ∧
      ∀ l, lines[i]? = some l →
        (hear d (known c bs (count i)) l = .ok (known c bs (count (i + 1))) ∧
          count (i + 1) = count i + 1) ∨
        ((∃ f, hear d (known c bs (count i)) l = .error f) ∧ count (i + 1) = count i) := by
  induction lines generalizing k with
  | nil =>
    refine ⟨fun _ => k, rfl, ?_⟩
    intro i
    refine ⟨hk, Nat.le_refl k, ?_, ?_⟩
    · rw [List.take_nil]
      rfl
    · intro l h
      cases h
  | cons l lines ih =>
    obtain ⟨next, hmono, hnext, hlisten, hline⟩ :=
      exists_next ha hd (hl l List.mem_cons_self) hk
    obtain ⟨count, rfl, hcount⟩ := ih (fun m hm => hl m (List.mem_cons_of_mem l hm)) hnext
    refine ⟨fun i => i.casesOn k count, rfl, ?_⟩
    intro i
    cases i with
    | zero =>
      refine ⟨hk, hmono, rfl, ?_⟩
      intro m hm
      cases hm
      exact hline
    | succ i =>
      obtain ⟨hle, hmono, hlisten', hline⟩ := hcount i
      refine ⟨hle, hmono, ?_, hline⟩
      rw [List.take_succ_cons, hlisten]
      exact hlisten'

/-- once the announcements of the missing blocks have been heard in order, none is missing -/
theorem listen_announced {lines : List String} (hl : ∀ l ∈ lines, ∃ p ∈ bs, l = announce p.1)
    {k : Nat} (hk : k ≤ bs.length)
    (hsub : ((bs.drop k).map fun p => announce p.1).Sublist lines) :
    listen d (known c bs k) lines = known c bs bs.length := by
  induction lines generalizing k with
  | nil =>
    have hnil := List.map_eq_nil_iff.mp (List.sublist_nil.mp hsub)
    show known c bs k = _
    rw [known_of_le (List.drop_eq_nil_iff.mp hnil)]
  | cons l lines ih =>
    have hrest := fun m hm => hl m (List.mem_cons_of_mem l hm)
    rcases hear_cases ha hd (hl l List.mem_cons_self) hk with ⟨hlt, hok⟩ | ⟨f, herr⟩
    · rw [listen_cons_ok hok]
      apply ih hrest hlt
      rw [List.drop_eq_getElem_cons hlt, List.map_cons] at hsub
      exact hsub.tail
    · rw [listen_cons_error herr]
      apply ih hrest hk
      rcases List.sublist_cons_iff.mp hsub with h | ⟨r, hr, -⟩
      · exact h
      · -- the next block would have been taken
        have hlt : k < bs.length := by
          by_contra hge
          rw [List.drop_of_length_le (Nat.le_of_not_lt hge)] at hr
          cases hr
        rw [List.drop_eq_getElem_cons hlt, List.map_cons] at hr
        rw [← (List.cons.inj hr).1, hear_next ha hd (List.getElem?_eq_getElem hlt)] at herr
        cases herr

end

/-- **A peer that follows announcements has a prefix of the announced chain.**  Let a node add the
blocks `bs` to `c`, and let a peer with the chain `c` hear some of their announcements, in any order,
at a difficulty that is no higher.  After each line the peer has `c` and the first so many of the
blocks, with the indices, and the count never falls; a line either adds the next block or is refused
and changes nothing.  Once the announcements have been heard in order, the peer has the chain of the
node. -/
theorem replica_follows {c a : Chain} {bs : List (Block × Nat)} (ha : c.addAll bs = .ok a)
    {d : Nat} (hd : ∀ p ∈ bs, d ≤ p.2) {lines : List String}
    (hl : ∀ l ∈ lines, ∃ p ∈ bs, l = announce p.1) :
    (∃ count : Nat → Nat, count 0 = 0 ∧ Monotone count ∧
      ∀ i, count i ≤ bs.length ∧ listen d c (lines.take i) = known c bs (count i) ∧
        ∀ l, lines[i]? = some l →
          (hear d (listen d c (lines.take i)) l = .ok (listen d c (lines.take (i + 1))) ∧
            count (i + 1) = count i + 1) ∨
          ((∃ f, hear d (listen d c (lines.take i)) l = .error f) ∧
            listen d c (lines.take (i + 1)) = listen d c (lines.take i) ∧
            count (i + 1) = count i)) ∧
    ((bs.map fun p => announce p.1).Sublist lines → listen d c lines = a) := by
  constructor
  · obtain ⟨count, hzero, hcount⟩ := exists_counts ha hd hl (Nat.zero_le bs.length)
    have hlisten (i : Nat) : listen d c (lines.take i) = known c bs (count i) := (hcount i).2.2.1
    refine ⟨count, hzero, ?_, ?_⟩
    · apply monotone_nat_of_le_succ
      intro i
      exact (hcount i).2.1
    intro i
    refine ⟨(hcount i).1, hlisten i, ?_⟩
    intro l h
    rw [hlisten, hlisten]
    rcases (hcount i).2.2.2 l h with haccept | ⟨hrefuse, hsame⟩
    · exact .inl haccept
    · exact .inr ⟨hrefuse, by rw [hsame], hsame⟩
  · intro hsub
    rw [(addAll_eq_ok ha).1]
    exact listen_announced ha hd hl (Nat.zero_le bs.length) hsub

/-- two blocks to go after the first one of all chains -/
def secondBlock : Block := (Chain.initial.grown .zero 89).tip

def thirdBlock : Block := Chain.leftFork.tip

/-- their announcements, one too early and both too often -/
def shuffled : List String :=
  [announce thirdBlock, announce secondBlock, announce secondBlock, announce thirdBlock,
    announce secondBlock]

theorem replica_follows_shuffled :
    Chain.initial.addAll [(secondBlock, 4), (thirdBlock, 4)] = .ok Chain.leftFork ∧
      (∀ p ∈ [(secondBlock, 4), (thirdBlock, 4)], 3 ≤ p.2) ∧
      (∀ l ∈ shuffled, ∃ p ∈ [(secondBlock, 4), (thirdBlock, 4)], l = announce p.1) ∧
      [announce secondBlock, announce thirdBlock].Sublist shuffled ∧
      listen 3 Chain.initial shuffled = Chain.leftFork := by
  have hv : Chain.verifyAfter 4 Chain.initial.tip [secondBlock, thirdBlock] = .ok () := by
    decide +kernel
  have ha : Chain.initial.addAll [(secondBlock, 4), (thirdBlock, 4)] = .ok Chain.leftFork := by
    have h := Chain.addAll_eq_map Chain.initial [secondBlock, thirdBlock] 4
    rw [hv] at h
    exact h
  have hd : ∀ p ∈ [(secondBlock, 4), (thirdBlock, 4)], 3 ≤ p.2 := by simp
  have hl : ∀ l ∈ shuffled, ∃ p ∈ [(secondBlock, 4), (thirdBlock, 4)], l = announce p.1 := by
    simp [shuffled]
  have hsub : [announce secondBlock, announce thirdBlock].Sublist shuffled :=
    .cons _ (.cons_cons _ (.cons _ (.cons_cons _ (List.nil_sublist _))))
  exact ⟨ha, hd, hl, hsub, (replica_follows ha hd hl).2 hsub⟩

end ChunkLedger.Wire
