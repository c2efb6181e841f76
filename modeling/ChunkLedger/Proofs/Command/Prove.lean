import ChunkLedger.Proofs.Chain.Lookup
import ChunkLedger.Proofs.Command.Report
import ChunkLedger.Proofs.Command.Upload
import ChunkLedger.Proofs.Merkle.Completeness
import ChunkLedger.Proofs.Merkle.Expansion

/-!
# A proof is had exactly for what is recorded

When a chain has been loaded and a file has been read, proving one of the file's chunks can fail for
three reasons only: the file has no chunks, no block has their root, or there are not so many chunks
(`proveChunk_cases`).  The root that is looked up is that of the tree from which the proof is taken,
so a proof that is had leads to the root of the block, and is never refuted; and a tree has as many
leaves as there are chunks, so a chunk with a proof is never missing.  What is printed is the proof
and the block, as they are read off the output (`Reports`).
-/

namespace ChunkLedger

namespace Command

/-- The block `b` is the newest with the root of the tree `t` over some chunks, and `proof` proves
chunk number `i` to it. -/
structure Proven (c : Chain) (t : Merkle.Tree) (chunks : List Bytes) (i : Nat) (b : Block)
    (proof : Merkle.Proof) : Prop where
  newest : c.Newest t.root b
  prove : t.prove i = .ok proof
  verify : ∃ chunk, chunks[i]? = some chunk ∧ Merkle.verify chunk b.merkleRoot proof = true

section
variable {c : Chain} {t : Merkle.Tree} {chunks : List Bytes}

/-- what comes of looking for a proof: there is no block, no such chunk, or there is a proof -/
theorem proveChunk_cases (hc : c.Built) (ht : Merkle.Tree.ofChunks chunks = .ok t)
    (index : UInt64) :
    ((∀ b ∈ c.blocks, b.merkleRoot ≠ t.root) ∧
      proveChunk c t chunks index = .error (.notRecorded t.root)) ∨
    (∃ b ∈ c.blocks, b.merkleRoot = t.root) ∧
      (chunks.length ≤ index.toNat ∧ proveChunk c t chunks index
          = .error (.proving index (.leafOutOfRange index.toNat chunks.length)) ∨
        index.toNat < chunks.length ∧ ∃ b proof, Proven c t chunks index.toNat b proof ∧
          proveChunk c t chunks index = .ok (b, proof)) := by
  rw [proveChunk]
  cases hfind : c.findRoot? t.root.bytes with
  | none => exact .inl ⟨(Chain.findRoot?_eq_none_iff hc).mp hfind, rfl⟩
  | some b =>
    have hnewest := Chain.newest_of_findRoot? hc hfind
    obtain ⟨before, after, hblocks, hroot, -⟩ := id hnewest
    refine .inr ⟨⟨b, ?_, hroot⟩, ?_⟩
    · rw [hblocks]
      exact List.mem_append_right before List.mem_cons_self
    have hcount := Merkle.Tree.leafCount_of_ofChunks ht
    rcases Nat.lt_or_ge index.toNat chunks.length with hlt | hge
    · have hchunk : chunks[index.toNat]? = some chunks[index.toNat] := List.getElem?_eq_getElem hlt
      obtain ⟨proof, hproof, hverify⟩ := Merkle.Tree.exists_proof ht hchunk
      rw [← hroot] at hverify
      refine .inr ⟨hlt, b, proof, ⟨hnewest, hproof, _, hchunk, hverify⟩, ?_⟩
      simp only [hproof, hchunk, hverify, if_true]
    · rw [← hcount] at hge ⊢
      refine .inl ⟨hge, ?_⟩
      simp only [Merkle.Tree.prove_of_le hge]

end

/-- what is printed of a proof -/
def provenLines (json : Bool) (b : Block) (index : UInt64) (leafCount : Nat)
    (proof : Merkle.Proof) : List String :=
  if json then [(proofValue b index proof).renderIndented] else proofLines b index leafCount proof

/-- The output reports chunk number `index` of so many, the block `b` and the proof. -/
def Reports (json : Bool) (out : List String) (b : Block) (index : UInt64) (leafCount : Nat)
    (proof : Merkle.Proof) : Prop :=
  match json with
  | true => ∃ text, out = [text] ∧
      Json.readFrom Report.read (utf8 text) = .ok ⟨b.hash, b.index, index, b.merkleRoot, proof⟩
  | false => ∃ first root, out = [first, "  Merkle root : " ++ root] ∧
      numbersIn first.toList = [index.toNat, leafCount, b.index.toNat, proof.length] ∧
        Digest.ofHex root = .ok b.merkleRoot

theorem reports_provenLines (json : Bool) (b : Block) (index : UInt64) (leafCount : Nat)
    (proof : Merkle.Proof) :
    Reports json (provenLines json b index leafCount proof) b index leafCount proof := by
  cases json with
  | true => exact ⟨_, rfl, readFrom_proofValue b index proof⟩
  | false => exact proofLines_eq b index leafCount proof

section
variable {w : World} {file chain : Path} {index size : UInt64} {json : Bool} {c : Chain}
  {content : Bytes} {chunks : List Bytes}

/-- with a chain and chunks at hand, the rest is to build the tree and to look for a proof -/
theorem answer_prove (hc : Chain.load chain w.disk = .ok c)
    (hchunks : Chunk.load (Chunk.sizeOfMb size).toNat file w.disk = .ok chunks) :
    w.answer (.prove file index chain size json) =
      (match Merkle.Tree.ofChunks chunks with
        | .error f => .error (.nothingToProve file f)
        | .ok t => (proveChunk c t chunks index).map fun p =>
          provenLines json p.1 index t.leafCount p.2, w) := by
  have hload : w.exec (loadChain chain) = (.ok c, w) := by
    rw [World.exec_loadChain, hc]
    rfl
  have hread : w.exec (readChunks file size) = (.ok chunks, w) := by
    rw [World.exec_readChunks, hchunks]
    rfl
  rw [World.answer, Request.run, runProve, World.exec_bind_of_ok hload,
    World.exec_bind_of_ok hread]
  cases Merkle.Tree.ofChunks chunks with
  | error f => rw [World.exec_bind_of_error (World.exec_orFail _ _)]
  | ok t =>
    rw [World.exec_bind_of_ok (World.exec_orFail _ _)]
    show _ = ((proveChunk c t chunks index).map _, w)
    cases proveChunk c t chunks index with
    | error f => rw [World.exec_bind_of_error (World.exec_orFail _ _)]; rfl
    | ok p =>
      rw [World.exec_bind_of_ok (World.exec_orFail _ _)]
      cases json <;> rfl

variable (hc : Chain.load chain w.disk = .ok c) (hread : w.disk.read file = .ok content)
  (hsize : 0 < size)
  (hchunks : chunks = Chunk.readPieces (min (size.toNat * 2 ^ 20) (2 ^ 64 - 1)) content)
include hc hread hsize hchunks

/-- everything that proving can come to -/
theorem answer_prove_cases :
    content = [] ∧
        w.answer (.prove file index chain size json) = (.error (.nothingToProve file .empty), w) ∨
      content ≠ [] ∧ ∃ t, Merkle.Tree.ofChunks chunks = .ok t ∧
        ((∀ b ∈ c.blocks, b.merkleRoot ≠ t.root) ∧
            w.answer (.prove file index chain size json) = (.error (.notRecorded t.root), w) ∨
          (∃ b ∈ c.blocks, b.merkleRoot = t.root) ∧
            (chunks.length ≤ index.toNat ∧ w.answer (.prove file index chain size json)
                = (.error (.proving index (.leafOutOfRange index.toNat chunks.length)), w) ∨
              index.toNat < chunks.length ∧ ∃ b proof, Proven c t chunks index.toNat b proof ∧
                w.answer (.prove file index chain size json)
                  = (.ok (provenLines json b index chunks.length proof), w))) := by
  rw [← Chunk.toNat_sizeOfMb] at hchunks
  have hne : (Chunk.sizeOfMb size).toNat ≠ 0 := by
    have hpos : 0 < size.toNat := UInt64.lt_iff_toNat_lt.mp hsize
    rw [Chunk.toNat_sizeOfMb]
    omega
  have hload : Chunk.load (Chunk.sizeOfMb size).toNat file w.disk = .ok chunks := by
    rw [Chunk.load, hread, Chunk.ofFile_ok hne, hchunks]
  rw [answer_prove hc hload]
  by_cases hempty : content = []
  · have hnone : chunks = [] := hchunks.trans ((Chunk.readPieces_eq_nil_iff hne).mpr hempty)
    rw [hnone]
    exact .inl ⟨hempty, rfl⟩
  · have hsome : chunks ≠ [] := by
      rw [hchunks]
      exact mt (Chunk.readPieces_eq_nil_iff hne).mp hempty
    obtain ⟨t, ht⟩ := Merkle.Tree.exists_ofChunks hsome
    refine .inr ⟨hempty, t, ht, ?_⟩
    simp only [ht]
    rcases proveChunk_cases (.load hc) ht index with
      ⟨habsent, h⟩ | ⟨hpresent, ⟨hge, h⟩ | ⟨hlt, b, proof, hproven, h⟩⟩
    · exact .inl ⟨habsent, by rw [h]; rfl⟩
    · exact .inr ⟨hpresent, .inl ⟨hge, by rw [h]; rfl⟩⟩
    · refine .inr ⟨hpresent, .inr ⟨hlt, b, proof, hproven, ?_⟩⟩
      rw [h, ← Merkle.Tree.leafCount_of_ofChunks ht]
      rfl

/-- **Proving is exact.**  With any chain that can be loaded, verified or not, any file that can be
read, and chunks of any size in mebibytes: a proof is had if and only if the file is not empty, some
block has the root of its chunks, and there is a chunk with that number.  It is a proof to the newest
such block and is accepted for that chunk, and the output reports that block and that proof.  There
are no failures but these three: no chunk is missing that has a proof, and no proof is refuted. -/
theorem prove_exact :
    ((∃ out w', w.answer (.prove file index chain size json) = (.ok out, w')) ↔
      content ≠ [] ∧ (∃ t, Merkle.Tree.ofChunks chunks = .ok t ∧
        ∃ b ∈ c.blocks, b.merkleRoot = t.root) ∧ index.toNat < chunks.length) ∧
    (∀ out w', w.answer (.prove file index chain size json) = (.ok out, w') → w' = w ∧
      ∃ t b proof, Merkle.Tree.ofChunks chunks = .ok t ∧ Proven c t chunks index.toNat b proof ∧
        Reports json out b index chunks.length proof) ∧
    ∀ f w', w.answer (.prove file index chain size json) = (.error f, w') → w' = w ∧
      (content = [] ∧ f = .nothingToProve file .empty ∨
        (∃ t, Merkle.Tree.ofChunks chunks = .ok t ∧ (∀ b ∈ c.blocks, b.merkleRoot ≠ t.root) ∧
          f = .notRecorded t.root) ∨
        chunks.length ≤ index.toNat ∧
          f = .proving index (.leafOutOfRange index.toNat chunks.length)) := by
  rcases answer_prove_cases hc hread hsize hchunks with ⟨hempty, h⟩ | ⟨hne, t, ht, hcases⟩
  · rw [h]
    refine ⟨⟨?_, fun hall => absurd hempty hall.1⟩, ?_, ?_⟩
    · rintro ⟨out, w', hok⟩
      cases hok
    · intro out w' hok
      cases hok
    · intro f w' herror
      cases herror
      exact ⟨rfl, .inl ⟨hempty, rfl⟩⟩
  · rcases hcases with ⟨habsent, h⟩ | ⟨hpresent, ⟨hge, h⟩ | ⟨hlt, b, proof, hproven, h⟩⟩
    · rw [h]
      refine ⟨⟨?_, ?_⟩, ?_, ?_⟩
      · rintro ⟨out, w', hok⟩
        cases hok
      · rintro ⟨-, ⟨t', ht', b, hb, hroot⟩, -⟩
        rw [ht] at ht'
        cases ht'
        exact absurd hroot (habsent b hb)
      · intro out w' hok
        cases hok
      · intro f w' herror
        cases herror
        exact ⟨rfl, .inr (.inl ⟨t, ht, habsent, rfl⟩)⟩
    · rw [h]
      refine ⟨⟨?_, fun hall => absurd hall.2.2 (Nat.not_lt.mpr hge)⟩, ?_, ?_⟩
      · rintro ⟨out, w', hok⟩
        cases hok
      · intro out w' hok
        cases hok
      · intro f w' herror
        cases herror
        exact ⟨rfl, .inr (.inr ⟨hge, rfl⟩)⟩
    · rw [h]
      refine ⟨⟨fun _ => ⟨hne, ⟨t, ht, hpresent⟩, hlt⟩, fun _ => ⟨_, _, rfl⟩⟩, ?_, ?_⟩
      · intro out w' hok
        cases hok
        exact ⟨rfl, t, b, proof, ht, hproven, reports_provenLines json b index _ proof⟩
      · intro f w' herror
        cases herror

end

/-- a full chunk of a mebibyte and a short one -/
def twoChunks : List Bytes := [List.replicate (2 ^ 20) 0, [1]]

theorem pieces_twoChunks : Chunk.readPieces (2 ^ 20) (Chunk.join twoChunks) = twoChunks := by
  refine Chunk.readPieces_join_of_cut (by decide) ?_
  refine Chunk.cut_cons_cons_iff.mpr ⟨List.length_replicate, ?_⟩
  exact Chunk.cut_singleton_iff.mpr (by decide)

/-- a chain that does not verify, two blocks of which record the same root -/
def recordedTwice (root : Digest) : Chain :=
  (Chain.initial.append { Block.genesis with merkleRoot := root, index := 4 }).append
    { Block.genesis with merkleRoot := root, nonce := 7 }

/-- the second chunk is proved to the second of the blocks that record the file, in one step, and
this is what the JSON says -/
theorem prove_exact_twoChunks :
    ∃ t w text r, Merkle.Tree.ofChunks twoChunks = .ok t ∧
      w = World.holding (recordedTwice t.root) (Chunk.join twoChunks) ∧
      (w.answer (.prove dataFile 1 chainFile 1 true)).1 = .ok [text] ∧
      Json.readFrom Report.read (utf8 text) = .ok r ∧
      r.blockHash = (recordedTwice t.root).tip.hash ∧ r.blockIndex = 0 ∧ r.chunkIndex = 1 ∧
      r.merkleRoot = t.root ∧ r.proof.length = 1 ∧ Merkle.verify [1] r.merkleRoot r.proof = true := by
  obtain ⟨t, ht⟩ : ∃ t, Merkle.Tree.ofChunks twoChunks = .ok t :=
    Merkle.Tree.exists_ofChunks (List.cons_ne_nil _ _)
  have hload : Chain.load chainFile (World.holding (recordedTwice t.root) (Chunk.join twoChunks)).disk
      = .ok (recordedTwice t.root) :=
    load_holding ((Chain.Built.initial.append _).append _) _
  have hchunks : twoChunks
      = Chunk.readPieces (min ((1 : UInt64).toNat * 2 ^ 20) (2 ^ 64 - 1)) (Chunk.join twoChunks) := by
    rw [one_mebibyte, pieces_twoChunks]
  have hne : Chunk.join twoChunks ≠ [] := by
    intro hnil
    rw [one_mebibyte, hnil, Chunk.readPieces_nil] at hchunks
    cases hchunks
  obtain ⟨hiff, hsuccess, -⟩ := @prove_exact _ dataFile chainFile 1 1 true _ _ _ hload
    (read_dataFile _ _) (by decide) hchunks
  have hrecorded : (recordedTwice t.root).tip ∈ (recordedTwice t.root).blocks :=
    List.mem_of_getLast? (recordedTwice t.root).getLast?_blocks
  obtain ⟨out, w', h⟩ := hiff.mpr ⟨hne, ⟨t, ht, _, hrecorded, rfl⟩, Nat.lt_succ_self 1⟩
  obtain ⟨-, t', b, proof, ht', hproven, text, rfl, hread⟩ := hsuccess out w' h
  rw [ht] at ht'
  cases ht'
  obtain rfl : b = (recordedTwice t.root).tip := hproven.newest.eq_tip rfl
  obtain ⟨chunk, hchunk, hverify⟩ := hproven.verify
  obtain rfl : [1] = chunk := Option.some.inj hchunk
  have hlength : proof.length = 1 := by
    have hleaf : t.leaves[1]? = some (sha256 [1]) := by
      rw [Merkle.Tree.leaves_of_ofChunks ht]
      rfl
    obtain ⟨p, hp, hdepth, -⟩ := Merkle.Tree.exists_climb hleaf
    obtain rfl : p = proof := Except.ok.inj (hp.symm.trans hproven.prove)
    rw [hdepth, t.depth_eq_clog, Merkle.Tree.leafCount_of_ofChunks ht]
    exact Nat.clog_eq_one (by decide) (by decide)
  exact ⟨t, _, text, _, ht, rfl, congrArg Prod.fst h, hread, rfl, rfl, rfl, rfl, hlength, hverify⟩

end Command

end ChunkLedger
