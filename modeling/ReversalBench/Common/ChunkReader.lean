import ReversalBench.Lib.Blocks
import ReversalBench.Lib.InputFile

/-! The chunk reader that the gRPC and Cap'n Proto programs share (`file_utils.cpp`). Its
end-of-file test counts the bytes read; its own flag is set by a read that delivers
nothing. -/

namespace ReversalBench.Common

structure ChunkReader where
  fileStream : IfStream
  chunkSize : ℕ
  fileSize : ℕ
  eofFlag : Bool
  totalBytesRead : ℕ

namespace ChunkReader

/-- The constructor, on a file that could be opened. -/
def new (disk : Disk) (chunkSize : ChunkSize) : ChunkReader where
  fileStream := .open disk
  chunkSize := chunkSize.val
  fileSize := disk.size
  eofFlag := false
  totalBytesRead := 0

def nextChunk (r : ChunkReader) : List UInt8 × ChunkReader :=
  if r.eofFlag || !r.fileStream.isOpen then ([], r)
  else
    let read := r.fileStream.read r.chunkSize
    let bytesReadThisCall := read.1.length
    let r := { r with fileStream := read.2 }
    if bytesReadThisCall > 0 then
      (read.1, { r with totalBytesRead := r.totalBytesRead + bytesReadThisCall })
    else ([], { r with eofFlag := true })

def eof (r : ChunkReader) : Bool := r.eofFlag || decide (r.totalBytesRead ≥ r.fileSize)

def remainingBytes (r : ChunkReader) : ℕ :=
  if r.totalBytesRead ≥ r.fileSize then 0 else r.fileSize - r.totalBytesRead

/-- Back to the start of the file. A stream that was closed is opened again on what the name
of the file stands for by then, if that can be opened; else an exception is thrown. -/
def reset (r : ChunkReader) (filename : String) (reopened : Option Disk) :
    Except String Unit × ChunkReader :=
  let fresh (fileStream : IfStream) : ChunkReader :=
    { r with fileStream, eofFlag := false, totalBytesRead := 0 }
  if r.fileStream.isOpen then (.ok (), fresh (r.fileStream.clear.seekg 0))
  else
    match reopened with
    | some disk => (.ok (), fresh (.open disk))
    | none =>
      (.error ("Error: Could not reopen file for reset: " ++ filename),
        { r with fileStream := { r.fileStream with failbit := true } })

/-! ### One call -/

@[simp] theorem nextChunk_fileSize (r : ChunkReader) : r.nextChunk.2.fileSize = r.fileSize := by
  unfold nextChunk
  split
  · rfl
  · dsimp only
    split <;> rfl

/-- The bytes of every chunk are counted. -/
@[simp] theorem nextChunk_totalBytesRead (r : ChunkReader) :
    r.nextChunk.2.totalBytesRead = r.totalBytesRead + r.nextChunk.1.length := by
  unfold nextChunk
  split
  · rfl
  · dsimp only
    split <;> rfl

/-- An empty chunk sets the flag, whatever the reason. -/
theorem nextChunk_of_nil {r : ChunkReader} (hflag : r.eofFlag = false)
    (hopen : r.fileStream.isOpen = true) (h : (r.fileStream.read r.chunkSize).1 = []) :
    r.nextChunk =
      ([], { r with fileStream := (r.fileStream.read r.chunkSize).2, eofFlag := true }) := by
  simp [nextChunk, hflag, hopen, h]

theorem nextChunk_of_ne_nil {r : ChunkReader} (hflag : r.eofFlag = false)
    (hopen : r.fileStream.isOpen = true) (h : (r.fileStream.read r.chunkSize).1 ≠ []) :
    r.nextChunk = ((r.fileStream.read r.chunkSize).1, { r with
      fileStream := (r.fileStream.read r.chunkSize).2
      totalBytesRead := r.totalBytesRead + (r.fileStream.read r.chunkSize).1.length }) := by
  have hpos := List.length_pos_of_ne_nil h
  simp [nextChunk, hflag, hopen, hpos]

/-! ### Reading a file that stays unchanged -/

variable {f : File} {chunkSize : ChunkSize} {k : ℕ} {r : ChunkReader}

/-- The reader after `k` chunks; the stream is good unless the last one was short. -/
structure At (f : File) (chunkSize : ChunkSize) (k : ℕ) (r : ChunkReader) : Prop where
  disk : r.fileStream.disk = Disk.ofFile f
  position : r.fileStream.position = min (k * chunkSize.val) f.bytes.length
  isOpen : r.fileStream.isOpen = true
  good : k * chunkSize.val ≤ f.bytes.length → r.fileStream.Good
  totalBytesRead : r.totalBytesRead = min (k * chunkSize.val) f.bytes.length
  chunkSize : r.chunkSize = chunkSize.val
  fileSize : r.fileSize = f.bytes.length
  eofFlag : r.eofFlag = false

theorem at_new (f : File) (chunkSize : ChunkSize) :
    At f chunkSize 0 (new (Disk.ofFile f) chunkSize) where
  disk := rfl
  position := by simp [new, IfStream.open]
  isOpen := rfl
  good _ := IfStream.good_open _
  totalBytesRead := by simp [new]
  chunkSize := rfl
  fileSize := rfl
  eofFlag := rfl

/-- Inside the file the next block is read. -/
theorem At.nextChunk (h : At f chunkSize k r)
    (hk : k < (Blocks.blocks chunkSize.val f.bytes).length) :
    r.nextChunk.1 = (Blocks.blocks chunkSize.val f.bytes)[k] ∧
      At f chunkSize (k + 1) r.nextChunk.2 := by
  have hlt : k * chunkSize.val < f.bytes.length := by
    rwa [Blocks.length_blocks, Blocks.lt_count_iff chunkSize.pos] at hk
  have hgood := h.good hlt.le
  have hread : (r.fileStream.read r.chunkSize).1 = (Blocks.blocks chunkSize.val f.bytes)[k] := by
    rw [IfStream.read_fst hgood, h.disk, h.position, h.chunkSize, min_eq_left hlt.le,
      Blocks.getElem_blocks]
    rfl
  have hlen := Blocks.length_getElem_blocks hk
  rw [Blocks.size, ← hread] at hlen
  have hpos := chunkSize.pos
  have hne : (r.fileStream.read r.chunkSize).1 ≠ [] := by
    rw [← List.length_pos_iff_ne_nil]
    omega
  rw [nextChunk_of_ne_nil h.eofFlag h.isOpen hne]
  refine ⟨hread, ?_⟩
  constructor
  · exact (IfStream.read_disk _ _).trans h.disk
  · rw [IfStream.read_position, h.position, hlen, Nat.succ_mul]
    omega
  · exact (IfStream.read_isOpen _ _).trans h.isOpen
  · intro hfull
    rw [Nat.succ_mul] at hfull
    exact IfStream.read_good hgood (by rw [hlen, h.chunkSize]; omega)
  · show r.totalBytesRead + (r.fileStream.read r.chunkSize).1.length = _
    rw [h.totalBytesRead, hlen, Nat.succ_mul]
    omega
  · exact h.chunkSize
  · exact h.fileSize
  · exact h.eofFlag

/-- At the end of the file nothing is read, and the reader says so. -/
theorem At.nextChunk_end (h : At f chunkSize k r)
    (hk : (Blocks.blocks chunkSize.val f.bytes).length ≤ k) :
    r.nextChunk.1 = [] ∧ r.nextChunk.2.eof = true := by
  have hle : f.bytes.length ≤ k * chunkSize.val := by
    rwa [Blocks.length_blocks, Blocks.count_le_iff chunkSize.pos] at hk
  have hread : (r.fileStream.read r.chunkSize).1 = [] := by
    unfold IfStream.read
    split
    · rfl
    · rw [h.disk, h.position, min_eq_right hle, Disk.deliver_ofFile, List.drop_length,
        List.take_nil]
  rw [nextChunk_of_nil h.eofFlag h.isOpen hread]
  exact ⟨rfl, rfl⟩

end ChunkReader

end ReversalBench.Common
