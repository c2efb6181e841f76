import ChunkLedger.Proofs.Chain.Replay
import ChunkLedger.Proofs.Chain.Tamper

/-!
# Chains that grow by checked blocks only

Blocks are offered to a chain one after the other, each at its own difficulty.  One that belongs
after the tip is accepted and becomes the tip; any other is refused and leaves the chain as it was
(`offer_cases`).

* `offerAll`   the chain after all the offers;
* `accepted`   the offers that were accepted: adding these alone comes to the same chain
               (`addAll_accepted`).

An accepted block keeps the chain verifiable at every difficulty up to its own (`verify_addAll`).
So a chain that has only ever grown like this verifies at the lowest difficulty of the accepted
offers (`verify_offerAll`), although they may all have been different.
-/

namespace ChunkLedger.Chain

/-- the chain after `b` has been offered to it, and what came of the offer -/
def offer (c : Chain) (b : Block) (d : Nat) : Chain × Except Fault Unit :=
  match c.add b d with
  | .ok c => (c, .ok ())
  | .error f => (c, .error f)

/-- the chain after some blocks have been offered to it, each at its own difficulty -/
def offerAll (c : Chain) (offers : List (Block × Nat)) : Chain :=
  offers.foldl (fun c p => (c.offer p.1 p.2).1) c

/-- those of the offers that are accepted -/
def accepted : Chain → List (Block × Nat) → List (Block × Nat)
  | _, [] => []
  | c, (b, d) :: rest =>
    match c.offer b d with
    | (c, .ok ()) => (b, d) :: c.accepted rest
    | (c, .error _) => c.accepted rest

theorem offerAll_cons (c : Chain) (b : Block) (d : Nat) (rest : List (Block × Nat)) :
    c.offerAll ((b, d) :: rest) = (c.offer b d).1.offerAll rest := rfl

theorem offerAll_take_succ {c : Chain} {offers : List (Block × Nat)} {i : Nat} {p : Block × Nat}
    (h : offers[i]? = some p) :
    c.offerAll (offers.take (i + 1)) = ((c.offerAll (offers.take i)).offer p.1 p.2).1 := by
  rw [offerAll, List.take_add_one, h, List.foldl_append]
  rfl

/-! ## one offer -/

theorem offer_of_valid {c : Chain} {b : Block} {d : Nat} (h : b.validate c.tip d = .ok ()) :
    c.offer b d = (c.append b, .ok ()) := by
  rw [offer, add, h]

theorem offer_of_invalid {c : Chain} {b : Block} {d : Nat} {f : Block.Fault}
    (h : b.validate c.tip d = .error f) : c.offer b d = (c, .error (.invalidBlock f)) := by
  rw [offer, add, h]

/-- a block is accepted and becomes the tip, or it is refused and nothing changes -/
theorem offer_cases (c : Chain) (b : Block) (d : Nat) :
    (b.validate c.tip d = .ok () ∧ c.offer b d = (c.append b, .ok ())) ∨
      ∃ f, b.validate c.tip d = .error f ∧ c.offer b d = (c, .error (.invalidBlock f)) := by
  cases h : b.validate c.tip d with
  | ok u => exact .inl ⟨rfl, offer_of_valid h⟩
  | error f => exact .inr ⟨f, rfl, offer_of_invalid h⟩

/-! ## many offers -/

/-- the accepted offers alone lead to the same chain -/
theorem addAll_accepted (c : Chain) (offers : List (Block × Nat)) :
    c.addAll (c.accepted offers) = .ok (c.offerAll offers) := by
  induction offers generalizing c with
  | nil => rfl
  | cons p rest ih =>
    obtain ⟨b, d⟩ := p
    rcases offer_cases c b d with ⟨hv, ho⟩ | ⟨f, -, ho⟩
    · rw [accepted, offerAll_cons, ho]
      exact addAll_cons_eq_ok.mpr ⟨hv, ih _⟩
    · rw [accepted, offerAll_cons, ho]
      exact ih c

theorem blocks_addAll {c a : Chain} {bs : List (Block × Nat)} (h : c.addAll bs = .ok a) :
    a.blocks = c.blocks ++ bs.map Prod.fst := by
  induction bs generalizing c with
  | nil =>
    cases h
    rw [List.map_nil, List.append_nil]
  | cons p rest ih =>
    obtain ⟨b, d⟩ := p
    rw [ih (addAll_cons_eq_ok.mp h).2, blocks_append, List.append_assoc, List.map_cons,
      List.singleton_append]

/-- accepted blocks keep a chain verifiable up to the lowest of their difficulties -/
theorem verify_addAll {c a : Chain} {bs : List (Block × Nat)} (h : c.addAll bs = .ok a) {d : Nat}
    (hv : c.verify d = .ok ()) (hd : ∀ p ∈ bs, d ≤ p.2) : a.verify d = .ok () := by
  induction bs generalizing c with
  | nil =>
    cases h
    exact hv
  | cons p rest ih =>
    obtain ⟨b, e⟩ := p
    obtain ⟨hvalid, hrest⟩ := addAll_cons_eq_ok.mp h
    have hde : d ≤ e := hd _ List.mem_cons_self
    apply ih hrest (verify_append_iff.mpr ⟨hv, Block.validate_of_le hde hvalid⟩)
    intro p hp
    exact hd p (List.mem_cons_of_mem _ hp)

/-- the first block of all chains is a proper first block -/
theorem verifyGenesis_genesis : Block.genesis.verifyGenesis = .ok () :=
  Block.verifyGenesis_eq_ok_iff.mpr ⟨rfl, rfl, Block.rehash_hash _⟩

theorem verify_of_start {g : Block} {c : Chain} (h : start g = .ok c) (d : Nat) :
    c.verify d = .ok () := by
  unfold start at h
  split at h
  · rename_i hg
    cases h
    exact verify_single hg d
  · cases h

/-- **Every run of offers keeps a chain verifiable.**  From a checked first block, or from the usual
one, let any blocks be offered at any difficulties.  Each offer makes the chain longer by its block
or leaves it as it was, indices included; in the end the chain has the accepted blocks in this
order, verifies at every difficulty that is not above one of theirs, has no broken link, and every
block's index is its position. -/
theorem verify_offerAll {c : Chain} (hc : c = initial ∨ ∃ g, start g = .ok c)
    (offers : List (Block × Nat)) :
    (∀ (i : Nat) (p : Block × Nat), offers[i]? = some p →
      ((c.offerAll (offers.take i)).offer p.1 p.2
          = (c.offerAll (offers.take (i + 1)), .ok ()) ∧
        c.offerAll (offers.take (i + 1)) = (c.offerAll (offers.take i)).append p.1) ∨
      ((∃ f, (c.offerAll (offers.take i)).offer p.1 p.2
          = (c.offerAll (offers.take (i + 1)), .error f)) ∧
        c.offerAll (offers.take (i + 1)) = c.offerAll (offers.take i))) ∧
    (c.offerAll offers).blocks = c.blocks ++ (c.accepted offers).map Prod.fst ∧
    (∀ d, (∀ p ∈ c.accepted offers, d ≤ p.2) → (c.offerAll offers).verify d = .ok ()) ∧
    (c.offerAll offers).checkLinks = .ok () ∧ (c.offerAll offers).isLinked = true ∧
    ∀ (i : Nat) (b : Block), (c.offerAll offers).blocks[i]? = some b → b.index.toNat = i := by
  have hadd := addAll_accepted c offers
  have hfirst (d : Nat) : c.verify d = .ok () := by
    rcases hc with rfl | ⟨g, hg⟩
    · exact verify_single verifyGenesis_genesis d
    · exact verify_of_start hg d
  have hzero : (c.offerAll offers).verify 0 = .ok () :=
    verify_addAll hadd (hfirst 0) fun p _ => Nat.zero_le p.2
  have hlinks := checkLinks_of_verify hzero
  refine ⟨?_, blocks_addAll hadd, fun d hd => verify_addAll hadd (hfirst d) hd, hlinks,
    isLinked_iff.mpr hlinks, fun i b hb => index_of_verify hzero hb⟩
  intro i p hp
  rw [offerAll_take_succ hp]
  rcases offer_cases (c.offerAll (offers.take i)) p.1 p.2 with ⟨-, ho⟩ | ⟨f, -, ho⟩
  · rw [ho]
    exact .inl ⟨rfl, rfl⟩
  · rw [ho]
    exact .inr ⟨⟨_, rfl⟩, rfl⟩

/-- the blocks of one fork, the later one too early at first and both too often -/
def someOffers : List (Block × Nat) :=
  [(leftFork.tip, 4), ((initial.grown .zero 89).tip, 4), ((initial.grown .zero 89).tip, 4),
    (leftFork.tip, 300), (leftFork.tip, 3)]

theorem verify_offerAll_someOffers :
    initial.accepted someOffers = [((initial.grown .zero 89).tip, 4), (leftFork.tip, 3)] ∧
      (initial.offerAll someOffers).verify 3 = .ok () ∧
      (initial.offerAll someOffers).blocks = leftFork.blocks := by
  have haccepted : initial.accepted someOffers
      = [((initial.grown .zero 89).tip, 4), (leftFork.tip, 3)] := by decide +kernel
  obtain ⟨-, hblocks, hverify, -⟩ := verify_offerAll (.inl rfl) someOffers
  rw [haccepted] at hblocks hverify
  exact ⟨haccepted, hverify 3 (by simp), hblocks⟩

end ChunkLedger.Chain
