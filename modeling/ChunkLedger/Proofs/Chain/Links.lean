import ChunkLedger.Proofs.Chain.Tamper

/-!
# The quick check and the full one

The quick check (`checkLinks`) looks at parents and indices only.  Verification looks at the first
block by itself and at every other one beside the block before it; it asks the same of two adjacent
blocks as the quick check does, and besides that the block is sealed.  Both stop at the first thing
that is wrong, but each has an order and words of its own.

* `Linked p b`         what both ask of two adjacent blocks;
* `c.BreaksAt k p b`   `p` and `b`, at positions `k` and `k + 1`, are the first that are not linked;
* `c.findings d`       what verification finds at each position, whether or not it gets there;
* `c.FailsAt d i f`    the first fault among these is `f`, at position `i`.

So verification is the quick check and what concerns a single block.  Where the quick check finds a
break, verification has found a fault at the second of the two blocks or before
(`verify_and_checkLinks`).
-/

namespace ChunkLedger.Chain

/-- `b` names `p` as its parent and has the index after it; after the last index there is none -/
def Linked (p b : Block) : Prop := b.prevHash = some p.hash ∧ p.index.toNat + 1 = b.index.toNat

theorem linked_eq_true_iff {p b : Block} : linked p b = true ↔ Linked p b := by
  rw [linked_iff, Block.nextIndex?_eq_some_iff, Linked]

/-- verification asks of two adjacent blocks that they are linked and that the second is sealed -/
theorem follows_iff {p b : Block} {d : Nat} : Follows d p b ↔ Linked p b ∧ b.Sealed d := by
  rw [Follows, Block.validate_eq_ok_iff, Block.nextIndex?_eq_some_iff]
  constructor
  · rintro ⟨hhash, hprev, hnext, hwork⟩
    exact ⟨⟨hprev, hnext⟩, hhash, hwork⟩
  · rintro ⟨⟨hprev, hnext⟩, hhash, hwork⟩
    exact ⟨hhash, hprev, hnext, hwork⟩

/-! ## what the quick check reports -/

/-- the first two adjacent blocks that are not linked are `p` at position `k` and `b` after it -/
structure BreaksAt (c : Chain) (k : Nat) (p b : Block) : Prop where
  prev : c.blocks[k]? = some p
  next : c.blocks[k + 1]? = some b
  broken : ¬ Linked p b
  before : ∀ i < k, ∀ q a, c.blocks[i]? = some q → c.blocks[i + 1]? = some a → Linked q a

theorem firstBreak_eq_some {prev : Block} {bs : List Block} {q : UInt64 × UInt64}
    (h : firstBreak prev bs = some q) :
    ∃ (k : Nat) (p b : Block), (prev :: bs)[k]? = some p ∧ bs[k]? = some b ∧
      q = (p.index, b.index) ∧ ¬ Linked p b ∧
      ∀ i < k, ∀ p' b', (prev :: bs)[i]? = some p' → bs[i]? = some b' → Linked p' b' := by
  induction bs generalizing prev with
  | nil => cases h
  | cons b bs ih =>
    rw [firstBreak] at h
    split at h
    · rename_i hlink
      obtain ⟨k, p, a, hp, ha, hq, hbroken, hbefore⟩ := ih h
      refine ⟨k + 1, p, a, hp, ha, hq, hbroken, ?_⟩
      intro i hi p' b' hp' hb'
      cases i with
      | zero =>
        cases hp'
        cases hb'
        exact linked_eq_true_iff.mp hlink
      | succ i => exact hbefore i (Nat.lt_of_succ_lt_succ hi) p' b' hp' hb'
    · rename_i hlink
      cases h
      refine ⟨0, prev, b, rfl, rfl, rfl, fun hl => hlink (linked_eq_true_iff.mpr hl), ?_⟩
      intro i hi
      omega

theorem breaksAt_of_checkLinks {c : Chain} {e : Fault} (h : c.checkLinks = .error e) :
    ∃ k p b, c.BreaksAt k p b ∧ e = .brokenLink p.index b.index := by
  unfold checkLinks at h
  split at h
  · cases h
  · rename_i i j hbreak
    cases h
    obtain ⟨k, p, b, hp, hb, hq, hbroken, hbefore⟩ := firstBreak_eq_some hbreak
    cases hq
    exact ⟨k, p, b, ⟨hp, hb, hbroken, hbefore⟩, rfl⟩

/-! ## what verification reports -/

/-- the first error among some results -/
def firstError : List (Except Block.Fault Unit) → Except Block.Fault Unit
  | [] => .ok ()
  | .ok () :: rest => firstError rest
  | .error f :: _ => .error f

/-- if there is an error at all, the first one stands there or before -/
theorem exists_firstError {rs : List (Except Block.Fault Unit)} {i : Nat} {e : Block.Fault}
    (h : rs[i]? = some (.error e)) :
    ∃ j ≤ i, ∃ f, firstError rs = .error f ∧ rs[j]? = some (.error f) ∧
      ∀ k < j, rs[k]? = some (.ok ()) := by
  induction rs generalizing i with
  | nil => cases h
  | cons r rs ih =>
    cases r with
    | error f => exact ⟨0, Nat.zero_le i, f, rfl, rfl, fun k hk => absurd hk (Nat.not_lt_zero k)⟩
    | ok u =>
      cases i with
      | zero => cases h
      | succ i =>
        obtain ⟨j, hj, f, hfirst, hat, hbefore⟩ := ih h
        refine ⟨j + 1, Nat.succ_le_succ hj, f, hfirst, hat, ?_⟩
        intro k hk
        cases k with
        | zero => rfl
        | succ k => exact hbefore k (Nat.lt_of_succ_lt_succ hk)

/-- what verification finds at each position -/
def findings (c : Chain) (d : Nat) : List (Except Block.Fault Unit) :=
  c.genesis.verifyGenesis :: (c.blocks.zip c.later).map fun q => q.2.validate q.1 d

/-- the first fault that verification finds is `f`, at position `i` -/
structure FailsAt (c : Chain) (d i : Nat) (f : Block.Fault) : Prop where
  fault : (c.findings d)[i]? = some (.error f)
  before : ∀ j < i, (c.findings d)[j]? = some (.ok ())

theorem verifyAfter_eq (d : Nat) (prev : Block) (bs : List Block) :
    verifyAfter d prev bs
      = firstError (((prev :: bs).zip bs).map fun q => q.2.validate q.1 d) := by
  induction bs generalizing prev with
  | nil => rfl
  | cons b bs ih =>
    rw [verifyAfter, List.zip_cons_cons, List.map_cons]
    cases b.validate prev d with
    | error f => rfl
    | ok u => exact ih b

theorem verify_eq (c : Chain) (d : Nat) : c.verify d = ofBlock (firstError (c.findings d)) := by
  rw [verify, findings]
  cases c.genesis.verifyGenesis with
  | error f => rfl
  | ok u => exact congrArg ofBlock (verifyAfter_eq d c.genesis c.later)

theorem getElem?_findings {c : Chain} {k : Nat} {p b : Block} (hp : c.blocks[k]? = some p)
    (hb : c.blocks[k + 1]? = some b) (d : Nat) :
    (c.findings d)[k + 1]? = some (b.validate p d) := by
  have hlater : c.later[k]? = some b := hb
  have hpair : (c.blocks.zip c.later)[k]? = some (p, b) :=
    List.getElem?_zip_eq_some.mpr ⟨hp, hlater⟩
  rw [findings, List.getElem?_cons_succ, List.getElem?_map, hpair]
  rfl

/-- verification does not get past two blocks that are not linked -/
theorem failsAt_of_not_linked {c : Chain} {k : Nat} {p b : Block} (hp : c.blocks[k]? = some p)
    (hb : c.blocks[k + 1]? = some b) (h : ¬ Linked p b) (d : Nat) :
    ∃ j ≤ k + 1, ∃ f, c.FailsAt d j f ∧ c.verify d = .error (.invalidBlock f) := by
  have hfinding := getElem?_findings hp hb d
  cases hv : b.validate p d with
  | ok u => exact absurd (follows_iff.mp hv).1 h
  | error e =>
    rw [hv] at hfinding
    obtain ⟨j, hj, f, hfirst, hat, hbefore⟩ := exists_firstError hfinding
    refine ⟨j, hj, f, ⟨hat, hbefore⟩, ?_⟩
    rw [verify_eq, hfirst]
    rfl

/-! ## both together -/

theorem isChain_follows_iff {prev : Block} {bs : List Block} {d : Nat} :
    (prev :: bs).IsChain (Follows d) ↔
      (prev :: bs).IsChain (fun p b => linked p b = true) ∧ ∀ b ∈ bs, b.Sealed d := by
  induction bs generalizing prev with
  | nil => simp
  | cons b bs ih =>
    rw [List.isChain_cons_cons, List.isChain_cons_cons, ih, follows_iff, linked_eq_true_iff,
      List.forall_mem_cons, and_and_and_comm]

/-- **The quick check and verification agree.**  A chain verifies at a difficulty exactly when its
first block is a proper one, no link is broken, and every later block is sealed.  If a link is
broken the quick check names the first two blocks that are not linked; verification then fails at
every difficulty, and at the second of the two or before. -/
theorem verify_and_checkLinks (c : Chain) (d : Nat) :
    (c.verify d = .ok () ↔ c.genesis.verifyGenesis = .ok () ∧ c.checkLinks = .ok () ∧
      ∀ b ∈ c.later, b.hash = b.computedHash ∧ b.meetsDifficulty d = true) ∧
    ∀ e, c.checkLinks = .error e →
      ∃ k p b, c.BreaksAt k p b ∧ e = .brokenLink p.index b.index ∧ c.isLinked = false ∧
        ∀ d', ∃ j ≤ k + 1, ∃ f, c.FailsAt d' j f ∧ c.verify d' = .error (.invalidBlock f) := by
  constructor
  · rw [verify_eq_ok_iff, checkLinks_eq_ok_iff, blocks, isChain_follows_iff]
    rfl
  · intro e he
    obtain ⟨k, p, b, hbreaks, rfl⟩ := breaksAt_of_checkLinks he
    refine ⟨k, p, b, hbreaks, rfl, ?_, failsAt_of_not_linked hbreaks.prev hbreaks.next
      hbreaks.broken⟩
    rw [Bool.eq_false_iff, ne_eq, isLinked_iff, he]
    intro h
    cases h

/-- after two good blocks one with the last index, the digest of another and no parent, and one that
takes that digest for its parent and starts with index 0 again -/
def tangled : Chain :=
  ((initial.grown .zero 89).append { Block.genesis with index := 0xffffffffffffffff }).append
    { Block.genesis with prevHash := some Block.genesis.hash }

theorem verify_and_checkLinks_tangled :
    tangled.checkLinks = .error (.brokenLink 1 0xffffffffffffffff) ∧
      ∃ k p b, tangled.BreaksAt k p b ∧
        Fault.brokenLink 1 0xffffffffffffffff = .brokenLink p.index b.index ∧
        tangled.isLinked = false ∧
        (∃ j ≤ k + 1, ∃ f, tangled.FailsAt 4 j f ∧ tangled.verify 4 = .error (.invalidBlock f)) ∧
        ∃ j ≤ k + 1, ∃ f, tangled.FailsAt 300 j f ∧
          tangled.verify 300 = .error (.invalidBlock f) := by
  have hbreak : tangled.checkLinks = .error (.brokenLink 1 0xffffffffffffffff) := by
    decide +kernel
  obtain ⟨k, p, b, hbreaks, hindices, hlinked, hfails⟩ :=
    (verify_and_checkLinks tangled 4).2 _ hbreak
  exact ⟨hbreak, k, p, b, hbreaks, hindices, hlinked, hfails 4, hfails 300⟩

end ChunkLedger.Chain
