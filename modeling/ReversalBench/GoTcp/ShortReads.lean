import ReversalBench.Lib.Reads
import ReversalBench.GoTcp.Client

/-! The chunk reader of the Go client and its loop over reads that may come short or fail. A
chunk is what one `file.Read` delivers; the loop goes on until the bytes read reach the size
that the file had when it was opened, or until a read delivers nothing. -/

namespace ReversalBench.GoTcp

/-! ### The last read -/

/-- The loop reads up to number `k`, if nothing fails: that read is empty or reaches the size of
the file, and those before it do neither. -/
structure LastRead (disk : Disk) (n k : ℕ) : Prop where
  before : ∀ i < k, disk.part n i ≠ [] ∧ disk.offset n (i + 1) < disk.size
  last : disk.part n k = [] ∨ disk.size ≤ disk.offset n (k + 1)

theorem LastRead.unique {disk : Disk} {n j k : ℕ} (hj : LastRead disk n j)
    (hk : LastRead disk n k) : j = k := by
  have hlt : ∀ {i m}, LastRead disk n i → LastRead disk n m → ¬ i < m := by
    intro i m hi hm him
    obtain ⟨hne, hmore⟩ := hm.before i him
    rcases hi.last with hnil | hend
    · exact hne hnil
    · omega
  exact le_antisymm (not_lt.mp (hlt hk hj)) (not_lt.mp (hlt hj hk))

/-- Some read is empty or reaches the size of the file. -/
theorem exists_last (disk : Disk) (n : ℕ) :
    ∃ k, disk.part n k = [] ∨ disk.size ≤ disk.offset n (k + 1) := by
  by_contra hno
  have hmore : ∀ k, disk.part n k ≠ [] ∧ disk.offset n (k + 1) < disk.size := by
    intro k
    rw [← not_le, ← not_or]
    exact fun hk => hno ⟨k, hk⟩
  have hle : ∀ k, k ≤ disk.offset n k := by
    intro k
    induction k with
    | zero => exact Nat.zero_le _
    | succ k ih =>
      have := List.length_pos_of_ne_nil (hmore k).1
      rw [Disk.offset_succ]
      omega
  have := hle (disk.size + 1)
  have := (hmore disk.size).2
  omega

/-- The number of the last read. -/
def lastRead (disk : Disk) (n : ℕ) : ℕ := Nat.find (exists_last disk n)

theorem lastRead_spec (disk : Disk) (n : ℕ) : LastRead disk n (lastRead disk n) where
  before i hi := by
    have hmin := Nat.find_min (exists_last disk n) hi
    rwa [not_or, not_le] at hmin
  last := Nat.find_spec (exists_last disk n)

/-- The chunks that are sent if nothing fails. -/
def chunks (disk : Disk) (n : ℕ) : List (List UInt8) :=
  disk.parts n (if disk.part n (lastRead disk n) = [] then lastRead disk n else lastRead disk n + 1)

/-- The last read fails. -/
def ReadFails (disk : Disk) (n : ℕ) : Prop :=
  disk.part n (lastRead disk n) = [] ∧ disk.ioError (lastRead disk n) = true

variable {disk : Disk} {n k : ℕ}

theorem LastRead.eq (h : LastRead disk n k) : lastRead disk n = k :=
  (lastRead_spec disk n).unique h

theorem length_chunks : (chunks disk n).length =
    if disk.part n (lastRead disk n) = [] then lastRead disk n else lastRead disk n + 1 :=
  Disk.length_parts _ _ _

/-- All that was read has been sent. -/
theorem offset_length_chunks :
    disk.offset n (chunks disk n).length = disk.offset n (lastRead disk n + 1) := by
  rw [length_chunks]
  split
  next hnil => rw [Disk.offset_succ, hnil, List.length_nil, Nat.add_zero]
  · rfl

theorem getElem_chunks {i : ℕ} (hi : i < (chunks disk n).length) :
    (chunks disk n)[i] = disk.part n i := by
  simp [chunks, Disk.parts]

namespace ChunkReader

variable {chunkSize : ChunkSize} {cr : ChunkReader}

/-- The reader before read number `k`. -/
structure Upto (disk : Disk) (chunkSize : ChunkSize) (k : ℕ) (cr : ChunkReader) : Prop where
  ofDisk : cr.file.disk = disk
  reads : cr.file.reads = k
  position : cr.file.position = disk.offset chunkSize.val k
  bytesRead : cr.bytesRead = disk.offset chunkSize.val k
  ofChunkSize : cr.chunkSize = chunkSize.val
  fileSize : cr.fileSize = disk.size
  notEof : cr.eofReached = false

theorem upto_new (disk : Disk) (chunkSize : ChunkSize) :
    Upto disk chunkSize 0 (new disk chunkSize) where
  ofDisk := rfl
  reads := rfl
  position := rfl
  bytesRead := rfl
  ofChunkSize := rfl
  fileSize := rfl
  notEof := rfl

theorem Upto.read (h : Upto disk chunkSize k cr) :
    cr.file.read cr.chunkSize = ((disk.part chunkSize.val k,
        if (disk.part chunkSize.val k).isEmpty then
          some (if disk.ioError k then .other "input/output error" else .eof)
        else none),
      ⟨disk, k + 1, disk.offset chunkSize.val (k + 1)⟩) := by
  simp only [OsFile.read, h.ofDisk, h.reads, h.position, h.ofChunkSize]
  rfl

/-- A chunk is read. -/
theorem Upto.readNextChunk (h : Upto disk chunkSize k cr)
    (hne : disk.part chunkSize.val k ≠ []) :
    ∃ cr', cr.readNextChunk = ((disk.part chunkSize.val k, none), cr') ∧
      cr'.eof = decide (disk.size ≤ disk.offset chunkSize.val (k + 1)) ∧
      (disk.offset chunkSize.val (k + 1) < disk.size → Upto disk chunkSize (k + 1) cr') := by
  have hempty : (disk.part chunkSize.val k).isEmpty = false := List.isEmpty_eq_false_iff.mpr hne
  refine ⟨{ cr with
    file := ⟨disk, k + 1, disk.offset chunkSize.val (k + 1)⟩
    bytesRead := disk.offset chunkSize.val (k + 1)
    eofReached := decide (disk.size ≤ disk.offset chunkSize.val (k + 1)) }, ?_, rfl, ?_⟩
  · simp only [ChunkReader.readNextChunk, h.notEof, h.read, hempty, h.bytesRead, h.fileSize,
      Bool.false_eq_true, if_false, Bool.false_or, ge_iff_le, Disk.offset_succ]
    rfl
  · intro hmore
    exact ⟨rfl, rfl, rfl, rfl, h.ofChunkSize, h.fileSize, decide_eq_false (not_le.mpr hmore)⟩

/-- Nothing is read: the file ends here, or the read failed. -/
theorem Upto.readNextChunk_nil (h : Upto disk chunkSize k cr)
    (hnil : disk.part chunkSize.val k = []) :
    ∃ cr', cr.readNextChunk = (([],
      some (if disk.ioError k then .other "input/output error" else .eof)), cr') := by
  cases hio : disk.ioError k with
  | true =>
    exact ⟨_, by simp only [ChunkReader.readNextChunk, h.notEof, h.read, hnil, hio,
      List.isEmpty_nil, Bool.false_eq_true, if_false, if_true]; rfl⟩
  | false =>
    exact ⟨_, by simp only [ChunkReader.readNextChunk, h.notEof, h.read, hnil, hio,
      List.isEmpty_nil, Bool.false_eq_true, if_false, if_true, List.length_nil, gt_iff_lt,
      lt_self_iff_false]; rfl⟩

end ChunkReader

/-! ### One round of the loop -/

namespace Client

variable {σ : Type*} (host : Host σ) {c : Client σ} {chunkSize : ChunkSize}

/-- A chunk is read and exchanged. -/
theorem next_part (hrun : c.status = .running) (hreader : c.chunkReader.Upto disk chunkSize k)
    (hne : disk.part chunkSize.val k ≠ []) :
    ∃ cr, next host c =
        some (exchange host { c with chunkReader := cr } (disk.part chunkSize.val k)) ∧
      cr.eof = decide (disk.size ≤ disk.offset chunkSize.val (k + 1)) ∧
      (disk.offset chunkSize.val (k + 1) < disk.size → cr.Upto disk chunkSize (k + 1)) := by
  obtain ⟨cr, hread, heof, hmore⟩ := hreader.readNextChunk hne
  have hlen : (disk.part chunkSize.val k).length ≠ 0 :=
    fun h0 => hne (List.length_eq_zero_iff.mp h0)
  refine ⟨cr, ?_, heof, hmore⟩
  simp only [Client.next, hrun, hread, process, hlen, false_and, if_false]

/-- A read that delivers nothing is the end of the file. -/
theorem next_end (hrun : c.status = .running) (hreader : c.chunkReader.Upto disk chunkSize k)
    (hnil : disk.part chunkSize.val k = []) (hio : disk.ioError k = false) :
    ∃ cr, next host c = some (leave host { c with chunkReader := cr }) := by
  obtain ⟨cr, hread⟩ := hreader.readNextChunk_nil hnil
  refine ⟨cr, ?_⟩
  simp only [Client.next, hrun, hread, hio, Bool.false_eq_true, if_false, List.length_nil, if_true]

/-- A read that fails ends the program. -/
theorem next_readFails (hrun : c.status = .running)
    (hreader : c.chunkReader.Upto disk chunkSize k) (hnil : disk.part chunkSize.val k = [])
    (hio : disk.ioError k = true) :
    ∃ cr, next host c = some (abort host { c with chunkReader := cr }
      (.readFailed (.other "input/output error"))) := by
  obtain ⟨cr, hread⟩ := hreader.readNextChunk_nil hnil
  refine ⟨cr, ?_⟩
  simp only [Client.next, hrun, hread, hio, if_true]

end Client

/-! ### A file that stays unchanged -/

/-- How many bytes each `file.Read` delivers at most: `os.File` never asks the system for more
than 1 GiB in one call, and gets at least one byte inside the file. -/
structure ReadSizes where
  size : ℕ → ℕ+
  le : ∀ t, (size t : ℕ) ≤ 2 ^ 30

namespace ReadSizes

/-- The file as these reads deliver it. -/
def diskOf (sizes : ReadSizes) (f : File) : Disk := Disk.inPieces f sizes.size

variable (sizes : ReadSizes) (f : File) (n k : ℕ)

theorem length_part : ((sizes.diskOf f).part n k).length =
    min (min (sizes.size k : ℕ) n) (f.bytes.length - (sizes.diskOf f).offset n k) := by
  simp only [Disk.part, diskOf, Disk.deliver_inPieces, List.length_take, List.length_drop]

theorem length_part_lt : ((sizes.diskOf f).part n k).length < 2 ^ 32 := by
  have hle := sizes.le k
  rw [length_part]
  omega

theorem offset_le : (sizes.diskOf f).offset n k ≤ f.bytes.length := by
  induction k with
  | zero => exact Nat.zero_le _
  | succ k ih =>
    rw [Disk.offset_succ, length_part]
    omega

/-- Only at the end of the file a read delivers nothing. -/
theorem part_eq_nil_iff {n : ℕ} (hn : 0 < n) :
    (sizes.diskOf f).part n k = [] ↔ f.bytes.length ≤ (sizes.diskOf f).offset n k := by
  have hpos := (sizes.size k).pos
  rw [← List.length_eq_zero_iff, length_part]
  omega

theorem not_readFails : ¬ ReadFails (sizes.diskOf f) n := by
  rintro ⟨-, hio⟩
  cases hio

/-- The chunks are the whole file. -/
theorem offset_chunks {n : ℕ} (hn : 0 < n) :
    (sizes.diskOf f).offset n (chunks (sizes.diskOf f) n).length = f.bytes.length := by
  refine le_antisymm (sizes.offset_le f n _) ?_
  rw [offset_length_chunks]
  rcases (lastRead_spec (sizes.diskOf f) n).last with hnil | hend
  · have hend := (sizes.part_eq_nil_iff f _ hn).mp hnil
    exact hend.trans ((sizes.diskOf f).offset_mono n (Nat.le_succ _))
  · exact hend

theorem chunks_ne_nil {chunk : List UInt8} (h : chunk ∈ chunks (sizes.diskOf f) n) :
    chunk ≠ [] := by
  obtain ⟨i, hi, rfl⟩ := List.mem_iff_getElem.mp h
  rw [getElem_chunks]
  rw [length_chunks] at hi
  split at hi
  · exact ((lastRead_spec (sizes.diskOf f) n).before i hi).1
  next hlast =>
    rcases Nat.lt_succ_iff_lt_or_eq.mp hi with hlt | rfl
    · exact ((lastRead_spec (sizes.diskOf f) n).before i hlt).1
    · exact hlast

theorem length_chunks_lt {chunk : List UInt8} (h : chunk ∈ chunks (sizes.diskOf f) n) :
    chunk.length < 2 ^ 32 := by
  obtain ⟨i, hi, rfl⟩ := List.mem_iff_getElem.mp h
  rw [getElem_chunks]
  exact sizes.length_part_lt f n i

end ReadSizes

end ReversalBench.GoTcp
