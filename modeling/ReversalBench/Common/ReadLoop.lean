import ReversalBench.Lib.Machine
import ReversalBench.Common.ChunkReader

/-! The loop in which both clients use their chunk reader: `next_chunk` until it returns an
empty chunk, and then `eof` decides whether that was the end of the file or an error. -/

namespace ReversalBench.Common

open StateTransition (Reaches)

/-- How the loop was left. -/
inductive LoopExit where
  | endOfFile
  | emptyChunk
  deriving DecidableEq

structure ReadLoop where
  reader : ChunkReader
  chunks : List (List UInt8)
  exit : Option LoopExit

namespace ReadLoop

def start (reader : ChunkReader) : ReadLoop := ⟨reader, [], none⟩

def next (s : ReadLoop) : Option ReadLoop :=
  match s.exit with
  | some _ => none
  | none =>
    let read := s.reader.nextChunk
    let chunkBuffer := read.1
    let s := { s with reader := read.2 }
    if chunkBuffer.isEmpty ∧ s.reader.eof then some { s with exit := some .endOfFile }
    else if chunkBuffer.isEmpty ∧ !s.reader.eof then some { s with exit := some .emptyChunk }
    else some { s with chunks := s.chunks ++ [chunkBuffer] }

/-- The chunks are a partition of the file into full chunks and a rest, the counters agree
with them in every state, and the loop ends where the file ends. -/
structure PartitionsFile (f : File) (chunkSize : ChunkSize) (reader : ChunkReader) : Prop where
  ends : ∃ t, Machine.Halts next (start reader) t ∧ t.exit = some .endOfFile ∧
    t.chunks.flatten = f.bytes ∧
    (∀ chunk ∈ t.chunks, 1 ≤ chunk.length ∧ chunk.length ≤ chunkSize.val) ∧
    ∀ chunk ∈ t.chunks.dropLast, chunk.length = chunkSize.val
  noError : ∀ s, Reaches next (start reader) s → s.exit ≠ some .emptyChunk
  counts : ∀ s, Reaches next (start reader) s →
    s.reader.totalBytesRead + s.reader.remainingBytes = s.reader.fileSize ∧
    s.reader.totalBytesRead = (s.chunks.map List.length).sum
  eof : ∀ s, Reaches next (start reader) s → (s.reader.eof = true ↔ s.chunks.flatten = f.bytes)

/-! ### One round -/

variable {f : File} {chunkSize : ChunkSize} {s t : ReadLoop}

theorem next_of_nil (h : s.exit = none) (hnil : s.reader.nextChunk.1 = [])
    (heof : s.reader.nextChunk.2.eof = true) :
    next s = some ⟨s.reader.nextChunk.2, s.chunks, some .endOfFile⟩ := by
  simp [next, h, hnil, heof]

theorem next_of_ne_nil (h : s.exit = none) (hne : s.reader.nextChunk.1 ≠ []) :
    next s = some ⟨s.reader.nextChunk.2, s.chunks ++ [s.reader.nextChunk.1], none⟩ := by
  simp [next, h, hne]

theorem next_of_exit {exit : LoopExit} (h : s.exit = some exit) : next s = none := by
  simp only [next, h]

/-- After some blocks of a file that stays unchanged. -/
structure Going (f : File) (chunkSize : ChunkSize) (s : ReadLoop) : Prop where
  reader : s.reader.At f chunkSize s.chunks.length
  chunks : s.chunks = (Blocks.blocks chunkSize.val f.bytes).take s.chunks.length
  le : s.chunks.length ≤ (Blocks.blocks chunkSize.val f.bytes).length
  exit : s.exit = none

/-- After the empty chunk at the end. -/
structure Over (f : File) (chunkSize : ChunkSize) (s : ReadLoop) : Prop where
  totalBytesRead : s.reader.totalBytesRead = f.bytes.length
  fileSize : s.reader.fileSize = f.bytes.length
  chunks : s.chunks = Blocks.blocks chunkSize.val f.bytes
  exit : s.exit = some .endOfFile

theorem going_start (f : File) (chunkSize : ChunkSize) :
    Going f chunkSize (start (.new (Disk.ofFile f) chunkSize)) where
  reader := ChunkReader.at_new f chunkSize
  chunks := rfl
  le := Nat.zero_le _
  exit := rfl

theorem Going.flatten (h : Going f chunkSize s) :
    s.chunks.flatten = f.bytes.take (s.chunks.length * chunkSize.val) := by
  have hflat := Blocks.flatten_take_blocks h.le
  rwa [← h.chunks] at hflat

/-- The next block is read, or the end of the file is noticed. -/
theorem Going.step (h : Going f chunkSize s) :
    ∃ t, next s = some t ∧
      ((Going f chunkSize t ∧ t.chunks.length = s.chunks.length + 1) ∨ Over f chunkSize t) := by
  rcases Nat.lt_or_ge s.chunks.length (Blocks.blocks chunkSize.val f.bytes).length with hlt | hge
  · obtain ⟨hread, hat⟩ := h.reader.nextChunk hlt
    have hne := Blocks.ne_nil_of_mem_blocks chunkSize.pos (List.getElem_mem hlt)
    refine ⟨_, next_of_ne_nil h.exit (hread ▸ hne), .inl ⟨⟨?_, ?_, ?_, rfl⟩, ?_⟩⟩
    · simpa using hat
    · rw [List.length_append, List.length_singleton, List.take_add_one,
        List.getElem?_eq_getElem hlt, ← h.chunks, hread]
      rfl
    · simpa [Nat.succ_le_iff] using hlt
    · simp
  · obtain ⟨hnil, heof⟩ := h.reader.nextChunk_end hge
    have hchunks := h.chunks
    rw [List.take_of_length_le hge] at hchunks
    refine ⟨_, next_of_nil h.exit hnil heof, .inr ⟨?_, ?_, hchunks, rfl⟩⟩
    · have hend := (Blocks.count_le_iff chunkSize.pos).mp (Blocks.length_blocks ▸ hge)
      rw [ChunkReader.nextChunk_totalBytesRead, hnil, h.reader.totalBytesRead, min_eq_right hend]
      rfl
    · rw [ChunkReader.nextChunk_fileSize, h.reader.fileSize]

/-! ### Whole runs -/

theorem read_of_reaches (h : Reaches next (start (.new (Disk.ofFile f) chunkSize)) s) :
    Going f chunkSize s ∨ Over f chunkSize s := by
  refine Machine.invariant_reaches (P := fun s => Going f chunkSize s ∨ Over f chunkSize s) ?_
    (.inl (going_start f chunkSize)) h
  rintro s t (hs | hs) hnext
  · obtain ⟨u, hu, hstep⟩ := hs.step
    cases hnext.symm.trans hu
    exact hstep.imp_left And.left
  · rw [next_of_exit hs.exit] at hnext
    cases hnext

theorem halts_over (f : File) (chunkSize : ChunkSize) :
    ∃ t, Machine.Halts next (start (.new (Disk.ofFile f) chunkSize)) t ∧ Over f chunkSize t := by
  refine Machine.halts_of_measure (P := Going f chunkSize)
    (fun s => (Blocks.blocks chunkSize.val f.bytes).length - s.chunks.length) ?_ ?_
    (going_start f chunkSize)
  · intro s hs
    obtain ⟨t, hnext, ⟨ht, hlen⟩ | ht⟩ := hs.step
    · have hle := ht.le
      exact ⟨t, hnext, .inl ⟨ht, by omega⟩⟩
    · exact ⟨t, hnext, .inr ht⟩
  · intro s hs
    exact next_of_exit hs.exit

/-- The bytes of the chunks are counted against the size of the file. -/
theorem Going.counts (h : Going f chunkSize s) :
    s.reader.fileSize = f.bytes.length ∧ s.reader.totalBytesRead = s.chunks.flatten.length := by
  refine ⟨h.reader.fileSize, ?_⟩
  rw [h.reader.totalBytesRead, h.flatten, List.length_take]

theorem Over.counts (h : Over f chunkSize s) :
    s.reader.fileSize = f.bytes.length ∧ s.reader.totalBytesRead = s.chunks.flatten.length := by
  refine ⟨h.fileSize, ?_⟩
  rw [h.totalBytesRead, h.chunks, Blocks.flatten_blocks chunkSize.pos]

theorem isPrefix_of_reaches (h : Reaches next (start (.new (Disk.ofFile f) chunkSize)) s) :
    s.chunks.flatten <+: f.bytes := by
  rcases read_of_reaches h with h | h
  · rw [h.flatten]
    exact List.take_prefix _ _
  · rw [h.chunks, Blocks.flatten_blocks chunkSize.pos]

theorem counts_of_reaches (h : Reaches next (start (.new (Disk.ofFile f) chunkSize)) s) :
    s.reader.fileSize = f.bytes.length ∧ s.reader.totalBytesRead = s.chunks.flatten.length :=
  (read_of_reaches h).elim Going.counts Over.counts

theorem flag_of_reaches (h : Reaches next (start (.new (Disk.ofFile f) chunkSize)) s)
    (hflag : s.reader.eofFlag = true) : s.chunks.flatten = f.bytes := by
  rcases read_of_reaches h with h | h
  · rw [h.reader.eofFlag] at hflag
    cases hflag
  · rw [h.chunks, Blocks.flatten_blocks chunkSize.pos]

/-- The loop partitions every file that stays unchanged while it is read without errors. -/
theorem loop_partitionsFile (f : File) (chunkSize : ChunkSize) :
    PartitionsFile f chunkSize (.new (Disk.ofFile f) chunkSize) where
  ends := by
    obtain ⟨t, ht, hover⟩ := halts_over f chunkSize
    refine ⟨t, ht, hover.exit, ?_, ?_, ?_⟩
    · rw [hover.chunks, Blocks.flatten_blocks chunkSize.pos]
    · intro chunk hchunk
      rw [hover.chunks] at hchunk
      have hne := Blocks.ne_nil_of_mem_blocks chunkSize.pos hchunk
      exact ⟨List.length_pos_of_ne_nil hne, Blocks.length_le_of_mem_blocks hchunk⟩
    · rw [hover.chunks]
      exact Blocks.length_of_mem_dropLast chunkSize.pos f.bytes
  noError s hs := by
    rcases read_of_reaches hs with h | h
    · simp [h.exit]
    · simp [h.exit]
  counts s hs := by
    obtain ⟨hsize, htotal⟩ := counts_of_reaches hs
    have hle := (isPrefix_of_reaches hs).length_le
    refine ⟨?_, by rw [htotal, List.length_flatten]⟩
    rw [ChunkReader.remainingBytes, hsize, htotal]
    split <;> omega
  eof s hs := by
    obtain ⟨hsize, htotal⟩ := counts_of_reaches hs
    rw [ChunkReader.eof, Bool.or_eq_true, decide_eq_true_eq, hsize, htotal]
    constructor
    · rintro (hflag | hle)
      · exact flag_of_reaches hs hflag
      · exact (isPrefix_of_reaches hs).eq_of_length_le hle
    · intro hall
      exact .inr (hall ▸ le_rfl)

end ReadLoop

end ReversalBench.Common
