import ChunkLedger.Proofs.Chain.Mined
import ChunkLedger.Proofs.Chain.Saving
import ChunkLedger.Proofs.Chunk.Cut
import ChunkLedger.Proofs.Command.World

/-!
# Uploading adds one block

An upload goes through stages, and succeeds exactly if all of them do (`upload_eq_ok_iff`): the chain
is loaded or begun, its links are checked, the file is cut into chunks, their tree gives the root of
a new block, the block is mined, the chain accepts it and is saved.  So what is loaded afterwards is
the chain from before with that block at its end (`upload_adds_block`).
-/

namespace ChunkLedger

namespace Command

/-- the chain to which a command adds has come about by loading, or is the usual first one -/
theorem World.built_of_chainAt {path : Path} {d : Disk} {c : Chain}
    (h : World.chainAt path d = .ok c) : c.Built := by
  rw [World.chainAt] at h
  by_cases hpresent : d.has path = true
  · rw [if_pos hpresent] at h
    exact .load h
  · rw [if_neg hpresent] at h
    cases h
    exact .initial

section
variable {w w' : World} {file chain : Path} {size : UInt64} {workers retries difficulty : Nat}
  {out : List String}

/-- **An upload, stage by stage.** -/
theorem upload_eq_ok_iff :
    (∃ out, w.exec (runUpload file chain size workers retries difficulty) = (.ok out, w')) ↔
      ∃ c chunks tree m o c', World.chainAt chain w.disk = .ok c ∧ c.checkLinks = .ok () ∧
        Chunk.load (Chunk.sizeOfMb size).toNat file w.disk = .ok chunks ∧
        Merkle.Tree.ofChunks chunks = .ok tree ∧
        m = Mining.Miner.mineOnce (uploadConfig workers retries difficulty) w.surroundings w.tokens
          (c.successor tree.root w.time) ∧
        m.result = .ok o ∧ c.add m.block difficulty = .ok c' ∧
        World.exec { w with tokens := m.tokens } (saveChain chain c') = (.ok (), w') := by
  constructor
  · rintro ⟨out, h⟩
    rw [runUpload] at h
    obtain ⟨c, _, hstage, h⟩ := World.exec_bind_eq_ok.mp h
    rw [World.exec_loadOrStart] at hstage
    obtain ⟨hload, rfl⟩ := World.unchanged_eq_ok.mp hstage
    obtain ⟨⟨⟩, _, hstage, h⟩ := World.exec_bind_eq_ok.mp h
    obtain ⟨hlinks, rfl⟩ := World.exec_orFail_eq_ok.mp hstage
    obtain ⟨chunks, _, hstage, h⟩ := World.exec_bind_eq_ok.mp h
    rw [World.exec_readChunks] at hstage
    obtain ⟨hchunks, rfl⟩ := World.unchanged_eq_ok.mp hstage
    obtain ⟨tree, _, hstage, h⟩ := World.exec_bind_eq_ok.mp h
    obtain ⟨htree, rfl⟩ := World.exec_orFail_eq_ok.mp hstage
    obtain ⟨now, _, hstage, h⟩ := World.exec_bind_eq_ok.mp h
    cases hstage
    obtain ⟨mined, _, hstage, h⟩ := World.exec_bind_eq_ok.mp h
    cases hstage
    obtain ⟨o, _, hstage, h⟩ := World.exec_bind_eq_ok.mp h
    obtain ⟨hresult, rfl⟩ := World.exec_orFail_eq_ok.mp hstage
    obtain ⟨c', _, hstage, h⟩ := World.exec_bind_eq_ok.mp h
    obtain ⟨hadd, rfl⟩ := World.exec_orFail_eq_ok.mp hstage
    obtain ⟨⟨⟩, _, hsave, h⟩ := World.exec_bind_eq_ok.mp h
    cases h
    exact ⟨c, chunks, tree, _, o, c', hload, hlinks, hchunks, htree, rfl, hresult, hadd, hsave⟩
  · rintro ⟨c, chunks, tree, m, o, c', hload, hlinks, hchunks, htree, rfl, hresult, hadd, hsave⟩
    have hstart : w.exec (loadOrStart chain) = (.ok c, w) := by
      rw [World.exec_loadOrStart, hload]
      rfl
    have hcut : w.exec (readChunks file size) = (.ok chunks, w) := by
      rw [World.exec_readChunks, hchunks]
      rfl
    rw [runUpload, World.exec_bind_of_ok hstart,
      World.exec_bind_of_ok (World.exec_orFail_eq_ok.mpr ⟨hlinks, rfl⟩),
      World.exec_bind_of_ok hcut, World.exec_bind_of_ok (World.exec_orFail_eq_ok.mpr ⟨htree, rfl⟩),
      World.exec_bind_of_ok World.exec_now, World.exec_bind_of_ok (World.exec_mine _ _),
      World.exec_bind_of_ok (World.exec_orFail_eq_ok.mpr ⟨hresult, rfl⟩),
      World.exec_bind_of_ok (World.exec_orFail_eq_ok.mpr ⟨hadd, rfl⟩),
      World.exec_bind_of_ok hsave]
    exact ⟨_, rfl⟩

/-- **An upload that succeeds adds exactly one block, and it is right.**  Whatever the disk, the
arguments, the clock and the course of mining: the chain `c` that was at the path, or the usual
first one if nothing was there, had no broken link, and what is loaded from the path afterwards has
its blocks and one more.  That block has the root of the file's chunks, cut at the given size, which
counts mebibytes and is held at the largest 64-bit number of bytes; it follows the tip of `c`, and
meets the difficulty.  So the new chain verifies, at every difficulty up to that one, if and only if
`c` did. -/
theorem upload_adds_block
    (h : w.answer (.upload file chain size workers retries difficulty) = (.ok out, w')) :
    ∃ c c' b content tree, World.chainAt chain w.disk = .ok c ∧ c.checkLinks = .ok () ∧
      w.disk.read file = .ok content ∧
      Merkle.Tree.ofChunks (Chunk.readPieces (min (size.toNat * 2 ^ 20) (2 ^ 64 - 1)) content)
        = .ok tree ∧
      Chain.load chain w'.disk = .ok c' ∧ c'.blocks = c.blocks ++ [b] ∧
      b.merkleRoot = tree.root ∧ b.prevHash = some c.tip.hash ∧
      b.index.toNat = c.tip.index.toNat + 1 ∧ b.hash = b.computedHash ∧
      b.meetsDifficulty difficulty = true ∧
      ∀ e ≤ difficulty, c'.verify e = .ok () ↔ c.verify e = .ok () := by
  obtain ⟨c, chunks, tree, m, o, c', hload, hlinks, hchunks, htree, hm, hresult, hadd, hsave⟩ :=
    upload_eq_ok_iff.mp ⟨out, h⟩
  rw [Chunk.toNat_sizeOfMb] at hchunks
  obtain ⟨content, hread, rfl⟩ := Chunk.pieces_of_load hchunks
  obtain ⟨hvalid, rfl⟩ := Chain.add_eq_ok hadd
  obtain ⟨hhash, hprev, hnext, hmeets⟩ := Block.validate_eq_ok_iff.mp hvalid
  have hroot : m.block.merkleRoot = tree.root := by
    rw [hm] at hresult ⊢
    have hblock := (Mining.Miner.sealed_of_ok hresult).1
    exact congrArg Block.merkleRoot hblock
  have hbuilt : (c.append m.block).Built := (World.built_of_chainAt hload).append _
  have hloaded : Chain.load chain w'.disk = .ok (c.append m.block) := by
    obtain ⟨steps, hsteps, hrun⟩ := World.steps_of_saveChain_ok hsave
    exact Chain.load_of_run hbuilt List.flatten_singleton hsteps
      (Disk.run_of_runUntil_eq_ok hrun)
  refine ⟨c, _, m.block, content, tree, hload, hlinks, hread, htree, hloaded,
    Chain.blocks_append c m.block, hroot, hprev, (Block.nextIndex?_eq_some_iff.mp hnext).symm,
    hhash, hmeets, ?_⟩
  intro e he
  rw [Chain.verify_append_iff]
  exact and_iff_left (Block.validate_of_le he hvalid)

end

/-! ## a chain beside a file -/

def chainFile : Path := ⟨"chain.json"⟩

def dataFile : Path := ⟨"data"⟩

def beside (text content : Bytes) : Disk :=
  ((⟨[], {}⟩ : Disk).put ["chain.json"] (.file text)).put ["data"] (.file content)

/-- nothing happens but what a command does with a chain and a file -/
def World.holding (c : Chain) (content : Bytes) : World where
  disk := beside (utf8 c.toText) content
  tokens := .none
  surroundings := .quiet fun _ => .epoch
  time := .epoch
  refusal := none

theorem read_chainFile (text content : Bytes) :
    (beside text content).read chainFile = .ok text := rfl

theorem read_dataFile (text content : Bytes) :
    (beside text content).read dataFile = .ok content := rfl

theorem load_holding {c : Chain} (hc : c.Built) (content : Bytes) :
    Chain.load chainFile (World.holding c content).disk = .ok c := by
  rw [World.holding, Chain.load, read_chainFile]
  exact Chain.ofContent_toText hc _

/-- another chain can be saved there -/
theorem save_holding (c c' : Chain) (content : Bytes) (ts : Mining.Tokens) :
    ∃ w', World.exec { World.holding c content with tokens := ts } (saveChain chainFile c')
      = (.ok (), w') := by
  have hdraft : chainFile.draft? = some ⟨"chain.json.tmp"⟩ := by decide +kernel
  have hparent : chainFile.parent? = none := by decide +kernel
  obtain ⟨steps, hsteps⟩ : ∃ steps, Chain.saveSteps chainFile [utf8 c'.toText] = .ok steps := by
    rw [Chain.saveSteps, hdraft]
    exact ⟨_, rfl⟩
  have hcreate (text : Bytes) : (beside text content).create ⟨"chain.json.tmp"⟩
      = .ok ((beside text content).put ["chain.json.tmp"] (.file [])) := rfl
  obtain ⟨d', hrun⟩ := Chain.exists_run_saveSteps hsteps hdraft (hcreate _) (read_chainFile _ content)
    fun q hq => by rw [hparent] at hq; cases hq
  exact ⟨_, World.exec_saveChain_of_run hsteps hrun⟩

/-- nothing is asked of a digest, and so the miner finds one at once -/
theorem exists_mined_holding (c : Chain) (content : Bytes) {workers retries : Nat}
    (hw : 0 < workers) (hr : 0 < retries) (root : Digest)
    (hroom : c.tip.index.toNat + 1 < UInt64.size) :
    let m := Mining.Miner.mineOnce (uploadConfig workers retries 0)
      (World.holding c content).surroundings (World.holding c content).tokens
      (c.successor root (World.holding c content).time)
    ∃ o, m.result = .ok o ∧ c.add m.block 0 = .ok (c.append m.block) := by
  intro m
  have hquiet : (World.holding c content).surroundings.Outside [0]
      (Mining.Miner.create (uploadConfig workers retries 0) [] .none).2 := by
    refine ⟨?_, ?_, ?_⟩
    · intro t ht
      have hnone : t ∈ Mining.Tokens.none.cancelled := ht
      simp [Mining.Tokens.none] at hnone
    · intro k t ht
      cases ht
    · intro k t ht
      cases ht
  obtain ⟨o, ho⟩ : ∃ o, m.result = .ok o :=
    Mining.Miner.exists_ok_of_quiet hw hr rfl hquiet (Mining.Tokens.isCancelled_none [0])
  have hvalid : m.block.validate c.tip 0 = .ok () := Chain.validate_mined ho (Nat.zero_le _) hroom
  refine ⟨o, ho, ?_⟩
  rw [Chain.add, hvalid]

/-- a file is uploaded unless it is empty, or the chain is broken or full -/
theorem exists_upload_holding {c : Chain} (hc : c.Built) (hlinks : c.checkLinks = .ok ())
    (hroom : c.tip.index.toNat + 1 < UInt64.size) {content : Bytes} (hne : content ≠ [])
    {size : UInt64} (hsize : (Chunk.sizeOfMb size).toNat ≠ 0) {workers retries : Nat}
    (hw : 0 < workers) (hr : 0 < retries) :
    ∃ out w', (World.holding c content).answer (.upload dataFile chainFile size workers retries 0)
      = (.ok out, w') := by
  have hload : World.chainAt chainFile (World.holding c content).disk = .ok c := by
    have hpresent : (World.holding c content).disk.has chainFile = true :=
      Disk.has_of_read (read_chainFile _ _)
    rw [World.chainAt, if_pos hpresent, load_holding hc]
  have hchunks : Chunk.load (Chunk.sizeOfMb size).toNat dataFile (World.holding c content).disk
      = .ok (Chunk.readPieces (Chunk.sizeOfMb size).toNat content) :=
    Chunk.load_of_read (Nat.pos_of_ne_zero hsize) (read_dataFile _ _)
  obtain ⟨tree, htree⟩ := Merkle.Tree.exists_ofChunks (mt (Chunk.readPieces_eq_nil_iff hsize).mp hne)
  obtain ⟨o, ho, hadd⟩ := exists_mined_holding c content hw hr tree.root hroom
  obtain ⟨w', hsave⟩ := save_holding c (c.append _) content _
  obtain ⟨out, h⟩ := upload_eq_ok_iff.mpr
    ⟨c, _, tree, _, o, _, hload, hlinks, hchunks, htree, rfl, ho, hadd, hsave⟩
  exact ⟨out, w', h⟩

/-- the first block of all chains and one that follows it -/
def followed : Chain :=
  Chain.initial.append
    (Block.rehash { Block.genesis with index := 1, prevHash := some Block.genesis.hash })

theorem one_mebibyte : min ((1 : UInt64).toNat * 2 ^ 20) (2 ^ 64 - 1) = 2 ^ 20 := by decide

/-- two full chunks of a mebibyte each and a short one -/
def threeChunks : List Bytes := [List.replicate (2 ^ 20) 0, List.replicate (2 ^ 20) 1, [2]]

/-- they are uploaded, and the chain of then three blocks verifies -/
theorem upload_adds_block_threeChunks :
    ∃ out w' c' b tree, (World.holding followed (Chunk.join threeChunks)).answer
        (.upload dataFile chainFile 1 2 1 0) = (.ok out, w') ∧
      Merkle.Tree.ofChunks threeChunks = .ok tree ∧ Chain.load chainFile w'.disk = .ok c' ∧
      c'.blocks = followed.blocks ++ [b] ∧ b.merkleRoot = tree.root ∧
      b.prevHash = some followed.tip.hash ∧ c'.verify 0 = .ok () := by
  have hbuilt : followed.Built := Chain.Built.initial.append _
  have hlinks : followed.checkLinks = .ok () := Chain.isLinked_iff.mp (by decide +kernel)
  have hverified : followed.verify 0 = .ok () := by decide +kernel
  have hpieces : Chunk.readPieces (2 ^ 20) (Chunk.join threeChunks) = threeChunks := by
    refine Chunk.readPieces_join_of_cut (by decide) ?_
    refine Chunk.cut_cons_cons_iff.mpr ⟨List.length_replicate, ?_⟩
    refine Chunk.cut_cons_cons_iff.mpr ⟨List.length_replicate, ?_⟩
    exact Chunk.cut_singleton_iff.mpr (by decide)
  have hne : Chunk.join threeChunks ≠ [] := by
    intro hnil
    rw [hnil, Chunk.readPieces_nil] at hpieces
    cases hpieces
  obtain ⟨out, w', hup⟩ := exists_upload_holding hbuilt hlinks (by decide) hne
    (by rw [Chunk.toNat_sizeOfMb, one_mebibyte]; decide : (Chunk.sizeOfMb 1).toNat ≠ 0)
    (by decide : 0 < 2) (by decide : 0 < 1)
  obtain ⟨c, c', b, content, tree, hload, -, hread, htree, hafter, hblocks, hroot, hprev, -, -, -,
    hverify⟩ := upload_adds_block hup
  have hpresent : (World.holding followed (Chunk.join threeChunks)).disk.has chainFile = true :=
    Disk.has_of_read (read_chainFile _ _)
  rw [World.chainAt, if_pos hpresent, load_holding hbuilt] at hload
  cases hload
  obtain rfl : Chunk.join threeChunks = content := Except.ok.inj hread
  rw [one_mebibyte, hpieces] at htree
  exact ⟨out, w', c', b, tree, hup, htree, hafter, hblocks, hroot, hprev,
    (hverify 0 (Nat.le_refl 0)).mpr hverified⟩

end Command

end ChunkLedger
