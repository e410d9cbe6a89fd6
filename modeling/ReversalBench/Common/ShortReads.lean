import ReversalBench.Lib.Reads
import ReversalBench.Common.ChunkReader

/-! The shared chunk reader over reads that may come short or fail. It returns what the reads
deliver, up to the first that comes short, and then an empty chunk; so it returns the same
chunks as over an unchanged file that holds what the reads yield. -/

namespace ReversalBench.Common.ChunkReader

variable {disk : Disk} {chunkSize : ChunkSize} {k : ℕ} {r r' : ChunkReader}

/-- The reader after `k` chunks: they were full and its stream is good, or the last of them came
short. -/
structure Upto (disk : Disk) (chunkSize : ChunkSize) (k : ℕ) (r : ChunkReader) : Prop where
  ofDisk : r.fileStream.disk = disk
  isOpen : r.fileStream.isOpen = true
  ofChunkSize : r.chunkSize = chunkSize.val
  eofFlag : r.eofFlag = false
  stream : ((∀ i < k, (disk.part chunkSize.val i).length = chunkSize.val) ∧ r.fileStream.Good ∧
      r.fileStream.reads = k ∧ r.fileStream.position = disk.offset chunkSize.val k) ∨
    (r.fileStream.Bad ∧ ∃ j < k, disk.FirstShort chunkSize.val j)

theorem upto_new (disk : Disk) (chunkSize : ChunkSize) :
    Upto disk chunkSize 0 (new disk chunkSize) where
  ofDisk := rfl
  isOpen := rfl
  ofChunkSize := rfl
  eofFlag := rfl
  stream := .inl ⟨fun _ hi => absurd hi (Nat.not_lt_zero _), IfStream.good_open disk, rfl, rfl⟩

/-- The next read delivers a chunk. -/
theorem Upto.nextChunk (h : Upto disk chunkSize k r) (hk : disk.Reads chunkSize.val k) :
    r.nextChunk.1 = disk.part chunkSize.val k ∧ Upto disk chunkSize (k + 1) r.nextChunk.2 := by
  rcases h.stream with ⟨-, hgood, hreads, hpos⟩ | ⟨-, j, hj, hshort⟩
  · have hread : (r.fileStream.read r.chunkSize).1 = disk.part chunkSize.val k := by
      rw [IfStream.read_fst hgood, h.ofDisk, hreads, hpos, h.ofChunkSize]
      rfl
    rw [nextChunk_of_ne_nil h.eofFlag h.isOpen (hread ▸ hk.2)]
    refine ⟨hread, (IfStream.read_disk _ _).trans h.ofDisk,
      (IfStream.read_isOpen _ _).trans h.isOpen, h.ofChunkSize, h.eofFlag, ?_⟩
    rcases Nat.lt_or_ge (disk.part chunkSize.val k).length chunkSize.val with hlt | hge
    · exact .inr ⟨IfStream.read_bad hgood (by rwa [hread, h.ofChunkSize]), k, Nat.lt_succ_self k,
        hk.1, hlt⟩
    · have hfull := le_antisymm (disk.length_part_le chunkSize.val k) hge
      refine .inl ⟨Disk.full_succ hk.1 hfull, IfStream.read_good hgood ?_, ?_, ?_⟩
      · rw [hread, hfull, h.ofChunkSize]
      · rw [IfStream.read_reads hgood, hreads]
      · rw [IfStream.read_position, hpos, hread, Disk.offset_succ]
  · exact absurd (hk.1 j hj) hshort.short.ne

/-- An empty chunk sets the flag, so that the size of the file does not matter. -/
theorem eofFlag_of_nil (hopen : r.fileStream.isOpen = true) (h : r.nextChunk.1 = []) :
    r.nextChunk.2.eofFlag = true := by
  cases hflag : r.eofFlag with
  | true => simp [ChunkReader.nextChunk, hflag]
  | false =>
    by_cases hread : (r.fileStream.read r.chunkSize).1 = []
    · rw [nextChunk_of_nil hflag hopen hread]
    · rw [nextChunk_of_ne_nil hflag hopen hread] at h
      exact absurd h hread

theorem eof_of_nil (hopen : r.fileStream.isOpen = true) (h : r.nextChunk.1 = []) :
    r.nextChunk.2.eof = true := by
  rw [eof, eofFlag_of_nil hopen h, Bool.true_or]

/-- The next read is not made or delivers nothing. -/
theorem Upto.nextChunk_nil (h : Upto disk chunkSize k r) (hk : ¬ disk.Reads chunkSize.val k) :
    r.nextChunk.1 = [] := by
  have hread : (r.fileStream.read r.chunkSize).1 = [] := by
    rcases h.stream with ⟨hfull, hgood, hreads, hpos⟩ | ⟨hbad, -⟩
    · rw [IfStream.read_fst hgood, h.ofDisk, hreads, hpos, h.ofChunkSize]
      by_contra hne
      exact hk ⟨hfull, hne⟩
    · exact IfStream.read_of_bad hbad _
  rw [nextChunk_of_nil h.eofFlag h.isOpen hread]

/-! ### The same chunks from an unchanged file -/

variable {f : File}

/-- The readers have returned the same chunks, one from the disk and the other from the file
that its reads yield, or both have come to the end. -/
def InStep (disk : Disk) (f : File) (chunkSize : ChunkSize) (r r' : ChunkReader) : Prop :=
  (∃ k ≤ (Blocks.blocks chunkSize.val f.bytes).length, Upto disk chunkSize k r ∧
    At f chunkSize k r') ∨ (r.eofFlag = true ∧ r'.eofFlag = true)

theorem nextChunk_of_flag (h : r.eofFlag = true) : r.nextChunk = ([], r) := by
  simp [ChunkReader.nextChunk, h]

/-- The next chunk is the same, and an empty one is the end for both. -/
theorem InStep.nextChunk (h : InStep disk f chunkSize r r') (hf : disk.Yields chunkSize.val f) :
    r.nextChunk.1 = r'.nextChunk.1 ∧ InStep disk f chunkSize r.nextChunk.2 r'.nextChunk.2 ∧
      (r.nextChunk.1 = [] → r.nextChunk.2.eof = true ∧ r'.nextChunk.2.eof = true) := by
  rcases h with ⟨k, hle, hr, hr'⟩ | ⟨hflag, hflag'⟩
  · rcases Nat.eq_or_lt_of_le hle with hend | hk
    · have hnil := hr.nextChunk_nil (mt (hf.reads_iff chunkSize.pos).mp (by omega))
      have hnil' := (hr'.nextChunk_end hend.ge).1
      refine ⟨hnil.trans hnil'.symm, .inr ⟨?_, ?_⟩, fun _ => ⟨?_, ?_⟩⟩
      · exact eofFlag_of_nil hr.isOpen hnil
      · exact eofFlag_of_nil hr'.isOpen hnil'
      · exact eof_of_nil hr.isOpen hnil
      · exact eof_of_nil hr'.isOpen hnil'
    · have hreads := (hf.reads_iff chunkSize.pos).mpr hk
      obtain ⟨hpart, hupto⟩ := hr.nextChunk hreads
      obtain ⟨hblock, hat⟩ := hr'.nextChunk hk
      rw [hf.getElem_blocks chunkSize.pos hk] at hblock
      refine ⟨hpart.trans hblock.symm, .inl ⟨k + 1, hk, hupto, hat⟩, fun hnil => ?_⟩
      exact absurd (hpart.symm.trans hnil) hreads.2
  · rw [nextChunk_of_flag hflag, nextChunk_of_flag hflag']
    exact ⟨rfl, .inr ⟨hflag, hflag'⟩, fun _ => by simp [eof, hflag, hflag']⟩

end ReversalBench.Common.ChunkReader
