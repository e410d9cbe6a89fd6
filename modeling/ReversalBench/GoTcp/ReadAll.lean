import ReversalBench.Lib.Machine
import ReversalBench.GoTcp.Fileutils

/-! All chunks of a file that stays unchanged, as the Go reader delivers them. A chunk is
what one `file.Read` delivers, and that may be less than was asked for. -/

namespace ReversalBench.GoTcp

open StateTransition (Reaches)

/-- A reader that is asked for chunks until it returns an error or says `EOF()`. -/
structure Reading where
  reader : ChunkReader
  chunks : List (List UInt8)
  err : Option GoError
  stopped : Bool

namespace Reading

def start (reader : ChunkReader) : Reading := ⟨reader, [], none, false⟩

def next (s : Reading) : Option Reading :=
  if s.stopped then none
  else
    let read := s.reader.readNextChunk
    match read.1.2 with
    | some err => some { s with reader := read.2, err := some err, stopped := true }
    | none => some { s with
        reader := read.2
        chunks := s.chunks ++ [read.1.1]
        stopped := read.2.eof }

/-- All bytes of the file have been returned, or an `io.EOF` was seen. -/
def AllRead (f : File) (s : Reading) : Prop :=
  (s.chunks ≠ [] ∧ s.chunks.flatten = f.bytes) ∨ s.err = some .eof

/-- The chunks returned are `TotalChunks()` many, all of them full except possibly the last,
and the reader keeps count of them. -/
structure SplitsFile (f : File) (chunkSize : ChunkSize) (reader : ChunkReader) : Prop where
  bytesRead : ∀ s, Reaches next (start reader) s →
    s.reader.bytesRead = (s.chunks.map List.length).sum
  eof : ∀ s, Reaches next (start reader) s → (s.reader.eof = true ↔ AllRead f s)
  ends : ∃ t, Machine.Halts next (start reader) t ∧ AllRead f t ∧ t.chunks.flatten = f.bytes ∧
    (∀ chunk ∈ t.chunks, chunk.length ≤ chunkSize.val) ∧
    (∀ chunk ∈ t.chunks.dropLast, chunk.length = chunkSize.val) ∧
    t.chunks.length = reader.totalChunks

/-- Every read delivers as many bytes as it is asked for, or as remain. -/
def FullReads (f : File) (chunkSize : ChunkSize) (sizes : ℕ → ℕ+) : Prop :=
  ∀ k, k < Blocks.count chunkSize.val f.bytes.length →
    Blocks.size chunkSize.val f.bytes.length k ≤ sizes k

/-! ### One call -/

variable {f : File} {chunkSize : ChunkSize} {sizes : ℕ → ℕ+} {s t : Reading}

theorem next_of_err {data : List UInt8} {err : GoError} {reader : ChunkReader}
    (h : s.stopped = false) (hr : s.reader.readNextChunk = ((data, some err), reader)) :
    next s = some ⟨reader, s.chunks, some err, true⟩ := by
  simp only [next, h, Bool.false_eq_true, if_false, hr]

theorem next_of_chunk {chunk : List UInt8} {reader : ChunkReader} (h : s.stopped = false)
    (hr : s.reader.readNextChunk = ((chunk, none), reader)) :
    next s = some ⟨reader, s.chunks ++ [chunk], s.err, reader.eof⟩ := by
  simp only [next, h, Bool.false_eq_true, if_false, hr]

theorem next_of_stopped (h : s.stopped = true) : next s = none := if_pos h

/-- The chunks of the first `n` reads. -/
def pieces (f : File) (chunkSize : ChunkSize) (sizes : ℕ → ℕ+) : ℕ → List (List UInt8)
  | 0 => []
  | n + 1 =>
    pieces f chunkSize sizes n ++ [(f.bytes.drop (pieces f chunkSize sizes n).flatten.length).take
      (min (sizes n) chunkSize.val)]

/-- Between two calls: what has been read is counted, and it is not the whole file yet,
unless the file is empty and nothing has been tried. -/
structure Going (f : File) (chunkSize : ChunkSize) (sizes : ℕ → ℕ+) (s : Reading) : Prop where
  disk : s.reader.file.disk = Disk.inPieces f sizes
  reads : s.reader.file.reads = s.chunks.length
  position : s.reader.file.position = s.chunks.flatten.length
  bytesRead : s.reader.bytesRead = s.chunks.flatten.length
  ofChunkSize : s.reader.chunkSize = chunkSize.val
  fileSize : s.reader.fileSize = f.bytes.length
  notEof : s.reader.eofReached = false
  chunks : s.chunks = pieces f chunkSize sizes s.chunks.length
  nonempty : ∀ chunk ∈ s.chunks, chunk ≠ []
  isPrefix : s.chunks.flatten <+: f.bytes
  err : s.err = none
  stopped : s.stopped = false
  more : s.chunks.flatten.length < f.bytes.length ∨ s.chunks = []

/-- After the last call. -/
structure Over (f : File) (chunkSize : ChunkSize) (sizes : ℕ → ℕ+) (s : Reading) : Prop where
  bytesRead : s.reader.bytesRead = s.chunks.flatten.length
  eof : s.reader.eof = true
  chunks : s.chunks = pieces f chunkSize sizes s.chunks.length
  nonempty : ∀ chunk ∈ s.chunks, chunk ≠ []
  flatten : s.chunks.flatten = f.bytes
  allRead : AllRead f s
  stopped : s.stopped = true

theorem going_start (f : File) (chunkSize : ChunkSize) (sizes : ℕ → ℕ+) :
    Going f chunkSize sizes (start (.new (Disk.inPieces f sizes) chunkSize)) where
  disk := rfl
  reads := rfl
  position := rfl
  bytesRead := rfl
  ofChunkSize := rfl
  fileSize := rfl
  notEof := rfl
  chunks := rfl
  nonempty := by simp [start]
  isPrefix := List.nil_prefix
  err := rfl
  stopped := rfl
  more := .inr rfl

/-- What the next read delivers. -/
def piece (f : File) (chunkSize : ChunkSize) (sizes : ℕ → ℕ+) (s : Reading) : List UInt8 :=
  (f.bytes.drop s.chunks.flatten.length).take (min (sizes s.chunks.length) chunkSize.val)

theorem Going.read (h : Going f chunkSize sizes s) :
    (s.reader.file.read s.reader.chunkSize).1.1 = piece f chunkSize sizes s := by
  simp only [OsFile.read, h.disk, h.reads, h.position, h.ofChunkSize, Disk.deliver_inPieces, piece]

theorem length_piece (f : File) (chunkSize : ChunkSize) (sizes : ℕ → ℕ+) (s : Reading) :
    (piece f chunkSize sizes s).length = min (min (sizes s.chunks.length : ℕ) chunkSize.val)
      (f.bytes.length - s.chunks.flatten.length) := by
  rw [piece, List.length_take, List.length_drop]

theorem piece_eq_nil_iff :
    piece f chunkSize sizes s = [] ↔ f.bytes.length ≤ s.chunks.flatten.length := by
  have hsize := (sizes s.chunks.length).pos
  have hpos := chunkSize.pos
  rw [← List.length_eq_zero_iff, length_piece]
  omega

/-- Of an empty file nothing is read. -/
theorem Going.next_nil (h : Going f chunkSize sizes s) (hnil : f.bytes = []) :
    ∃ t, next s = some t ∧ Over f chunkSize sizes t := by
  have hchunks : s.chunks.flatten = [] := List.eq_nil_of_prefix_nil (hnil ▸ h.isPrefix)
  have hread : s.reader.readNextChunk = (([], some .eof), { s.reader with
      file := (s.reader.file.read s.reader.chunkSize).2, eofReached := true }) := by
    simp [ChunkReader.readNextChunk, h.notEof, OsFile.read, h.disk, hnil]
  refine ⟨_, next_of_err h.stopped hread, ?_⟩
  exact {
    bytesRead := h.bytesRead
    eof := rfl
    chunks := h.chunks
    nonempty := h.nonempty
    flatten := hchunks.trans hnil.symm
    allRead := .inr rfl
    stopped := rfl }

/-- Inside the file a piece of it is read. -/
theorem Going.next_piece (h : Going f chunkSize sizes s)
    (hlt : s.chunks.flatten.length < f.bytes.length) :
    ∃ t, next s = some t ∧ t.chunks = s.chunks ++ [piece f chunkSize sizes s] ∧
      (Going f chunkSize sizes t ∨ Over f chunkSize sizes t) := by
  have hne : piece f chunkSize sizes s ≠ [] := mt piece_eq_nil_iff.mp (not_le.mpr hlt)
  have hread : s.reader.readNextChunk = ((piece f chunkSize sizes s, none), { s.reader with
      file := (s.reader.file.read s.reader.chunkSize).2
      bytesRead := s.chunks.flatten.length + (piece f chunkSize sizes s).length
      eofReached := decide (f.bytes.length ≤
        s.chunks.flatten.length + (piece f chunkSize sizes s).length) }) := by
    have herr : (s.reader.file.read s.reader.chunkSize).1.2 = none := by
      have := h.read
      simp only [OsFile.read] at this ⊢
      simp [this, hne]
    simp only [ChunkReader.readNextChunk, h.notEof, Bool.false_eq_true, if_false, herr, h.read,
      h.bytesRead, h.fileSize, Bool.false_or, ge_iff_le]
  have hchunks : s.chunks ++ [piece f chunkSize sizes s] =
      pieces f chunkSize sizes (s.chunks ++ [piece f chunkSize sizes s]).length := by
    rw [List.length_append, List.length_singleton, pieces, ← h.chunks]
    rfl
  have hnonempty : ∀ chunk ∈ s.chunks ++ [piece f chunkSize sizes s], chunk ≠ [] := by
    simpa [or_imp, forall_and, hne] using h.nonempty
  have hprefix : (s.chunks ++ [piece f chunkSize sizes s]).flatten <+: f.bytes := by
    obtain ⟨rest, hrest⟩ := h.isPrefix
    rw [List.flatten_append, List.flatten_singleton, piece, ← hrest, List.drop_left]
    exact List.prefix_append_right_inj _ |>.mpr (List.take_prefix _ _)
  have hlen : (s.chunks ++ [piece f chunkSize sizes s]).flatten.length =
      s.chunks.flatten.length + (piece f chunkSize sizes s).length := by
    rw [List.flatten_append, List.flatten_singleton, List.length_append]
  refine ⟨_, next_of_chunk h.stopped hread, rfl, ?_⟩
  by_cases hend : f.bytes.length ≤ s.chunks.flatten.length + (piece f chunkSize sizes s).length
  · have hall := hprefix.eq_of_length_le (hend.trans hlen.ge)
    exact .inr {
      bytesRead := hlen.symm
      eof := decide_eq_true hend
      chunks := hchunks
      nonempty := hnonempty
      flatten := hall
      allRead := .inl ⟨by simp, hall⟩
      stopped := decide_eq_true hend }
  · have hmore : (s.chunks ++ [piece f chunkSize sizes s]).flatten.length < f.bytes.length :=
      hlen ▸ not_le.mp hend
    refine .inl {
      disk := h.disk
      reads := ?_
      position := ?_
      bytesRead := hlen.symm
      ofChunkSize := h.ofChunkSize
      fileSize := h.fileSize
      notEof := decide_eq_false hend
      chunks := hchunks
      nonempty := hnonempty
      isPrefix := hprefix
      err := h.err
      stopped := decide_eq_false hend
      more := .inl hmore }
    · simp [OsFile.read, h.reads]
    · rw [hlen, ← h.position, ← h.read]
      rfl

/-! ### All calls -/

/-- The reader after some calls. -/
def Read (f : File) (chunkSize : ChunkSize) (sizes : ℕ → ℕ+) (s : Reading) : Prop :=
  Going f chunkSize sizes s ∨ Over f chunkSize sizes s

theorem Going.step (h : Going f chunkSize sizes s) :
    ∃ t, next s = some t ∧ ((Going f chunkSize sizes t ∧
      s.chunks.flatten.length < t.chunks.flatten.length) ∨ Over f chunkSize sizes t) := by
  by_cases hnil : f.bytes = []
  · obtain ⟨t, hnext, hover⟩ := h.next_nil hnil
    exact ⟨t, hnext, .inr hover⟩
  · have hlt : s.chunks.flatten.length < f.bytes.length := by
      refine h.more.elim id fun hchunks => ?_
      rw [hchunks]
      exact List.length_pos_of_ne_nil hnil
    obtain ⟨t, hnext, hchunks, hgoing | hover⟩ := h.next_piece hlt
    · refine ⟨t, hnext, .inl ⟨hgoing, ?_⟩⟩
      have hne : piece f chunkSize sizes s ≠ [] := mt piece_eq_nil_iff.mp (not_le.mpr hlt)
      rw [hchunks, List.flatten_append, List.flatten_singleton, List.length_append]
      have := List.length_pos_of_ne_nil hne
      omega
    · exact ⟨t, hnext, .inr hover⟩

theorem read_of_reaches (h : Reaches next (start (.new (Disk.inPieces f sizes) chunkSize)) s) :
    Read f chunkSize sizes s := by
  refine Machine.invariant_reaches (P := Read f chunkSize sizes) ?_ (.inl (going_start _ _ _)) h
  rintro s t (hs | hs) hnext
  · obtain ⟨u, hu, hstep⟩ := hs.step
    cases hnext.symm.trans hu
    exact hstep.imp_left And.left
  · rw [next_of_stopped hs.stopped] at hnext
    cases hnext

/-- The loop ends, however short the reads are. -/
theorem halts_over (f : File) (chunkSize : ChunkSize) (sizes : ℕ → ℕ+) :
    ∃ t, Machine.Halts next (start (.new (Disk.inPieces f sizes) chunkSize)) t ∧
      Over f chunkSize sizes t := by
  refine Machine.halts_of_measure (P := Going f chunkSize sizes)
    (fun s => f.bytes.length - s.chunks.flatten.length) ?_ ?_ (going_start _ _ _)
  · intro s hs
    obtain ⟨t, hnext, ⟨ht, hlt⟩ | ht⟩ := hs.step
    · have := ht.isPrefix.length_le
      exact ⟨t, hnext, .inl ⟨ht, by omega⟩⟩
    · exact ⟨t, hnext, .inr ht⟩
  · intro s hs
    exact next_of_stopped hs.stopped

theorem Read.bytesRead (h : Read f chunkSize sizes s) :
    s.reader.bytesRead = (s.chunks.map List.length).sum := by
  rw [← List.length_flatten]
  exact h.elim (·.bytesRead) (·.bytesRead)

theorem Read.eof_iff (h : Read f chunkSize sizes s) : s.reader.eof = true ↔ AllRead f s := by
  rcases h with h | h
  · refine iff_of_false (by simp [ChunkReader.eof, h.notEof]) ?_
    rintro (⟨hne, hall⟩ | herr)
    · have hlt := h.more.resolve_right hne
      rw [hall] at hlt
      exact lt_irrefl _ hlt
    · rw [h.err] at herr
      cases herr
  · exact iff_of_true h.eof h.allRead

/-! ### Full reads -/

theorem length_pieces (f : File) (chunkSize : ChunkSize) (sizes : ℕ → ℕ+) (n : ℕ) :
    (pieces f chunkSize sizes n).length = n := by
  induction n with
  | zero => rfl
  | succ n ih => rw [pieces, List.length_append, ih, List.length_singleton]

theorem take_pieces {k n : ℕ} (h : k ≤ n) :
    (pieces f chunkSize sizes n).take k = pieces f chunkSize sizes k := by
  induction n with
  | zero => rw [Nat.le_zero.mp h]; rfl
  | succ n ih =>
    rcases Nat.eq_or_lt_of_le h with rfl | hlt
    · exact List.take_of_length_le (length_pieces _ _ _ _).le
    · rw [pieces, List.take_append_of_le_length (by rw [length_pieces]; omega), ih (by omega)]

theorem getElem?_pieces {k n : ℕ} (h : k < n) : (pieces f chunkSize sizes n)[k]? =
    some ((f.bytes.drop (pieces f chunkSize sizes k).flatten.length).take
      (min (sizes k) chunkSize.val)) := by
  rw [← List.getElem?_take_of_lt (Nat.lt_succ_self k), take_pieces h, pieces,
    List.getElem?_append_right (length_pieces _ _ _ _).le, length_pieces, Nat.sub_self]
  rfl

/-- Full reads deliver the blocks. -/
theorem FullReads.pieces (h : FullReads f chunkSize sizes) {k : ℕ}
    (hk : k ≤ (Blocks.blocks chunkSize.val f.bytes).length) :
    pieces f chunkSize sizes k = (Blocks.blocks chunkSize.val f.bytes).take k := by
  induction k with
  | zero => rfl
  | succ k ih =>
    have hsize := h k (Blocks.length_blocks ▸ hk)
    have hoffset : (Reading.pieces f chunkSize sizes k).flatten.length = k * chunkSize.val := by
      have hlt := (Blocks.lt_count_iff chunkSize.pos).mp (Blocks.length_blocks ▸ hk)
      rw [ih (Nat.le_of_succ_le hk), Blocks.flatten_take_blocks (Nat.le_of_succ_le hk),
        List.length_take_of_le hlt.le]
    have hpiece : (f.bytes.drop (k * chunkSize.val)).take (min (sizes k) chunkSize.val) =
        (f.bytes.drop (k * chunkSize.val)).take chunkSize.val := by
      rw [List.take_eq_take_iff, List.length_drop]
      rw [Blocks.size] at hsize
      omega
    rw [Reading.pieces, hoffset, hpiece, ih (Nat.le_of_succ_le hk), List.take_add_one,
      List.getElem?_eq_getElem hk, Blocks.getElem_blocks]
    rfl

/-- With full reads the chunks are the blocks. -/
theorem Over.chunks_eq (h : Over f chunkSize sizes s) (hfull : FullReads f chunkSize sizes) :
    s.chunks = Blocks.blocks chunkSize.val f.bytes := by
  rcases Nat.lt_or_ge (Blocks.blocks chunkSize.val f.bytes).length s.chunks.length with hlt | hge
  · -- one piece more would be empty
    have hget := @getElem?_pieces f chunkSize sizes _ _ hlt
    rw [← h.chunks, hfull.pieces le_rfl, List.take_length, Blocks.flatten_blocks chunkSize.pos,
      List.drop_length, List.take_nil] at hget
    exact absurd rfl (h.nonempty [] (List.mem_of_getElem? hget))
  · have hchunks := h.chunks
    rw [hfull.pieces hge] at hchunks
    have hall := h.flatten
    rw [hchunks, Blocks.flatten_take_blocks hge, List.take_eq_self_iff] at hall
    rw [hchunks, List.take_of_length_le]
    rwa [Blocks.length_blocks, Blocks.count_le_iff chunkSize.pos]

/-- Where the chunks are the blocks, the reads were full. -/
theorem Over.fullReads (h : Over f chunkSize sizes s)
    (hblocks : s.chunks = Blocks.blocks chunkSize.val f.bytes) : FullReads f chunkSize sizes := by
  intro k hk
  have hlt : k < (Blocks.blocks chunkSize.val f.bytes).length := by rwa [Blocks.length_blocks]
  have hget := @getElem?_pieces f chunkSize sizes k s.chunks.length (hblocks ▸ hlt)
  rw [← h.chunks, hblocks, List.getElem?_eq_getElem hlt, Option.some.injEq] at hget
  have hlen := congrArg List.length hget
  rw [Blocks.length_getElem_blocks, List.length_take] at hlen
  omega

theorem totalChunks_new (disk : Disk) (chunkSize : ChunkSize) :
    (ChunkReader.new disk chunkSize).totalChunks = Blocks.count chunkSize.val disk.size := by
  simp only [ChunkReader.new, Blocks.count_eq_div chunkSize.pos]
  split
  next h => rw [h, Nat.zero_mod, Nat.zero_div, if_neg (not_not.mpr rfl)]
  · rfl

theorem SplitsFile.fullReads
    (h : SplitsFile f chunkSize (.new (Disk.inPieces f sizes) chunkSize)) :
    FullReads f chunkSize sizes := by
  obtain ⟨t, ht, -, hflat, hle, hfull, -⟩ := h.ends
  have hover : Over f chunkSize sizes t := by
    refine (read_of_reaches ht.1).resolve_left fun hgoing => ?_
    obtain ⟨u, hnext, -⟩ := hgoing.step
    rw [ht.2] at hnext
    cases hnext
  apply hover.fullReads
  rw [← hflat]
  exact Blocks.eq_blocks chunkSize.pos hover.nonempty hle hfull

/-- The reader returns the whole file and keeps count of it for all sizes of the reads, but
it splits the file into `TotalChunks()` chunks if and only if no read comes short. -/
theorem splitsFile_iff (f : File) (chunkSize : ChunkSize) (sizes : ℕ → ℕ+) :
    SplitsFile f chunkSize (.new (Disk.inPieces f sizes) chunkSize) ↔
      FullReads f chunkSize sizes := by
  refine ⟨SplitsFile.fullReads, fun hfull => ?_⟩
  refine ⟨fun s hs => (read_of_reaches hs).bytesRead, fun s hs => (read_of_reaches hs).eof_iff, ?_⟩
  obtain ⟨t, ht, hover⟩ := halts_over f chunkSize sizes
  have hchunks := hover.chunks_eq hfull
  refine ⟨t, ht, hover.allRead, hover.flatten, ?_, ?_, ?_⟩
  · intro chunk hchunk
    exact Blocks.length_le_of_mem_blocks (hchunks ▸ hchunk)
  · rw [hchunks]
    exact Blocks.length_of_mem_dropLast chunkSize.pos f.bytes
  · rw [hchunks, Blocks.length_blocks, totalChunks_new, Disk.size_inPieces]

/-- Two bytes in one chunk, read one byte at a time. -/
theorem not_splitsFile : ¬ SplitsFile ⟨[1, 2], by decide⟩ ⟨2, by decide, by decide⟩
    (.new (Disk.inPieces ⟨[1, 2], by decide⟩ fun _ => 1) ⟨2, by decide, by decide⟩) := by
  intro h
  exact absurd (h.fullReads 0 (by decide)) (by decide)

/-- What holds for all sizes of the reads: the loop ends with the whole file returned. -/
theorem returns_file (f : File) (chunkSize : ChunkSize) (sizes : ℕ → ℕ+) :
    ∃ t, Machine.Halts next (start (.new (Disk.inPieces f sizes) chunkSize)) t ∧
      t.chunks.flatten = f.bytes ∧ t.reader.bytesRead = f.bytes.length ∧
      t.reader.eof = true := by
  obtain ⟨t, ht, hover⟩ := halts_over f chunkSize sizes
  exact ⟨t, ht, hover.flatten, by rw [hover.bytesRead, hover.flatten], hover.eof⟩

end Reading

end ReversalBench.GoTcp
