import ReversalBench.Lib.Blocks
import ReversalBench.Lib.InputFile
import ReversalBench.GoTcp.Messaging

/-! The chunk reader of the Go benchmark (package `fileutils`). The end of the file is
noticed by counting the bytes read, or by a read that delivers nothing. -/

namespace ReversalBench.GoTcp

/-- An `os.File` that is open for reading. -/
structure OsFile where
  disk : Disk
  reads : ℕ
  position : ℕ

/-- `file.Read` into a buffer of `n` bytes: the bytes read and the error. Nothing read
is `io.EOF`, unless the read failed. -/
def OsFile.read (file : OsFile) (n : ℕ) : (List UInt8 × Option GoError) × OsFile :=
  let bytes := file.disk.deliver file.reads file.position n
  let err : Option GoError :=
    if bytes.isEmpty then
      some (if file.disk.ioError file.reads then .other "input/output error" else .eof)
    else none
  ((bytes, err), { file with reads := file.reads + 1, position := file.position + bytes.length })

structure ChunkReader where
  file : OsFile
  chunkSize : ℕ
  fileSize : ℕ
  bytesRead : ℕ
  totalChunks : ℕ
  eofReached : Bool

namespace ChunkReader

/-- `NewChunkReader`, on a file that could be opened. -/
def new (disk : Disk) (chunkSize : ChunkSize) : ChunkReader :=
  let fileSize := disk.size
  let totalChunks := fileSize / chunkSize.val
  let totalChunks := if fileSize % chunkSize.val ≠ 0 then totalChunks + 1 else totalChunks
  let totalChunks := if fileSize = 0 then 0 else totalChunks
  { file := ⟨disk, 0, 0⟩
    chunkSize := chunkSize.val
    fileSize
    bytesRead := 0
    totalChunks
    eofReached := false }

def readNextChunk (cr : ChunkReader) : (List UInt8 × Option GoError) × ChunkReader :=
  if cr.eofReached then (([], some .eof), cr)
  else
    let r := cr.file.read cr.chunkSize
    let n := r.1.1.length
    let cr := { cr with file := r.2 }
    match r.1.2 with
    | some .eof =>
      let cr := { cr with eofReached := true }
      if n > 0 then ((r.1.1, none), { cr with bytesRead := cr.bytesRead + n })
      else (([], some .eof), cr)
    | some err => (([], some err), cr)
    | none =>
      let cr := { cr with bytesRead := cr.bytesRead + n }
      ((r.1.1, none), { cr with
        eofReached := cr.eofReached || decide (cr.bytesRead ≥ cr.fileSize) })

def eof (cr : ChunkReader) : Bool := cr.eofReached

/-! ### Reading a file that stays unchanged -/

variable {f : File} {chunkSize : ChunkSize} {k : ℕ} {cr : ChunkReader}

/-- The reader after `k` full chunks. -/
structure At (f : File) (chunkSize : ChunkSize) (k : ℕ) (cr : ChunkReader) : Prop where
  disk : cr.file.disk = Disk.ofFile f
  position : cr.file.position = k * chunkSize.val
  bytesRead : cr.bytesRead = k * chunkSize.val
  chunkSize : cr.chunkSize = chunkSize.val
  fileSize : cr.fileSize = f.bytes.length
  notEof : cr.eofReached = false

theorem at_new (f : File) (chunkSize : ChunkSize) :
    At f chunkSize 0 (new (Disk.ofFile f) chunkSize) where
  disk := rfl
  position := (Nat.zero_mul _).symm
  bytesRead := (Nat.zero_mul _).symm
  chunkSize := rfl
  fileSize := rfl
  notEof := rfl

/-- An empty file ends at once. -/
theorem At.readNextChunk_nil (h : At f chunkSize 0 cr) (hf : f.bytes = []) :
    ∃ cr', cr.readNextChunk = (([], some .eof), cr') := by
  refine ⟨{ cr with file := (cr.file.read cr.chunkSize).2, eofReached := true }, ?_⟩
  simp [readNextChunk, h.notEof, OsFile.read, h.disk, hf]

/-- Inside the file the next block is read, and its end is noticed with the last one. -/
theorem At.readNextChunk (h : At f chunkSize k cr)
    (hk : k < (Blocks.blocks chunkSize.val f.bytes).length) :
    ∃ cr', cr.readNextChunk = (((Blocks.blocks chunkSize.val f.bytes)[k], none), cr') ∧
      cr'.eof = decide ((Blocks.blocks chunkSize.val f.bytes).length ≤ k + 1) ∧
      (k + 1 < (Blocks.blocks chunkSize.val f.bytes).length → At f chunkSize (k + 1) cr') := by
  have hget := (Blocks.getElem_blocks hk).symm
  have hne := Blocks.ne_nil_of_mem_blocks chunkSize.pos (List.getElem_mem hk)
  have hlen := Blocks.length_getElem_blocks hk
  rw [Blocks.size] at hlen
  have hlt : k * chunkSize.val < f.bytes.length := by
    rwa [Blocks.length_blocks, Blocks.lt_count_iff chunkSize.pos] at hk
  have hend : (Blocks.blocks chunkSize.val f.bytes).length ≤ k + 1 ↔
      f.bytes.length ≤ k * chunkSize.val + chunkSize.val := by
    rw [Blocks.length_blocks, Blocks.count_le_iff chunkSize.pos, Nat.succ_mul]
  generalize (Blocks.blocks chunkSize.val f.bytes)[k] = block at *
  refine ⟨{ cr with
    file := (cr.file.read cr.chunkSize).2
    bytesRead := k * chunkSize.val + block.length
    eofReached := decide (f.bytes.length ≤ k * chunkSize.val + block.length) }, ?_, ?_, ?_⟩
  · simp [ChunkReader.readNextChunk, h.notEof, OsFile.read, h.disk, h.position, h.chunkSize,
      h.bytesRead, h.fileSize, hget, hne]
  · rw [eof, decide_eq_decide, hend]
    omega
  · intro hmore
    have hroom := mt hend.mpr (not_le.mpr hmore)
    have hfull : block.length = chunkSize.val := by omega
    constructor
    · exact h.disk
    · simp [OsFile.read, h.disk, h.position, h.chunkSize, hget, hfull, Nat.succ_mul]
    · simp [hfull, Nat.succ_mul]
    · exact h.chunkSize
    · exact h.fileSize
    · simp only [decide_eq_false_iff_not]
      omega

end ChunkReader

end ReversalBench.GoTcp
