import ReversalBench.Lib.Calls
import ReversalBench.Common.ChunkReader

/-! `ChunkReader::reset` (`file_utils.cpp`). Whatever was called before, a reader that is reset
cannot be told from a new one: the three members that a read changes are set back, and the
stream is cleared before it is moved, so that it moves also after a short read. -/

namespace ReversalBench.Common

/-- The calls of a user of the reader. The file name matters, and what it stands for, only to
a reset that opens the file again. -/
inductive ReaderCall where
  | nextChunk
  | eof
  | remainingBytes
  | reset (filename : String) (reopened : Option Disk)

inductive ReaderResult where
  | chunk (bytes : List UInt8)
  | flag (eof : Bool)
  | size (remaining : ℕ)
  | done (outcome : Except String Unit)

namespace ChunkReader

def call (r : ChunkReader) : ReaderCall → ReaderResult × ChunkReader
  | .nextChunk => (.chunk r.nextChunk.1, r.nextChunk.2)
  | .eof => (.flag r.eof, r)
  | .remainingBytes => (.size r.remainingBytes, r)
  | .reset filename reopened =>
    (.done (r.reset filename reopened).1, (r.reset filename reopened).2)

variable {f : File} {chunkSize : ChunkSize} {r s : ChunkReader}

/-- What no call changes. -/
structure On (f : File) (chunkSize : ChunkSize) (r : ChunkReader) : Prop where
  disk : r.fileStream.disk = Disk.ofFile f
  isOpen : r.fileStream.isOpen = true
  chunkSize : r.chunkSize = chunkSize.val
  fileSize : r.fileSize = f.bytes.length

theorem on_new (f : File) (chunkSize : ChunkSize) :
    On f chunkSize (new (Disk.ofFile f) chunkSize) := ⟨rfl, rfl, rfl, rfl⟩

theorem On.nextChunk (h : On f chunkSize r) : On f chunkSize r.nextChunk.2 := by
  have hdisk := (IfStream.read_disk r.fileStream r.chunkSize).trans h.disk
  have hopen := (IfStream.read_isOpen r.fileStream r.chunkSize).trans h.isOpen
  unfold ChunkReader.nextChunk
  split
  · exact h
  · dsimp only
    split
    · exact ⟨hdisk, hopen, h.chunkSize, h.fileSize⟩
    · exact ⟨hdisk, hopen, h.chunkSize, h.fileSize⟩

/-- The stream is open, so nothing is opened again and nothing is thrown. -/
theorem On.reset_eq (h : On f chunkSize r) (filename : String) (reopened : Option Disk) :
    r.reset filename reopened = (.ok (), { r with
      fileStream := { r.fileStream with
        position := 0, eofbit := false, failbit := false, badbit := false }
      eofFlag := false
      totalBytesRead := 0 }) := by
  simp only [reset, h.isOpen, if_true, IfStream.seekg_clear]

theorem On.call (h : On f chunkSize r) (a : ReaderCall) : On f chunkSize (r.call a).2 := by
  cases a with
  | nextChunk => exact h.nextChunk
  | eof => exact h
  | remainingBytes => exact h
  | reset filename reopened =>
    simp only [ChunkReader.call, h.reset_eq]
    exact ⟨h.disk, h.isOpen, h.chunkSize, h.fileSize⟩

/-- Two readers of the same file that differ at most in the number of reads their streams have
served. -/
structure Alike (f : File) (chunkSize : ChunkSize) (r s : ChunkReader) : Prop where
  on : On f chunkSize r
  stream : r.fileStream.Alike s.fileStream
  members : s = { r with fileStream := s.fileStream }

/-- A reset reader is like a new one. -/
theorem On.alike_new (h : On f chunkSize r) (filename : String) (reopened : Option Disk) :
    Alike f chunkSize (r.reset filename reopened).2 (new (Disk.ofFile f) chunkSize) := by
  rw [h.reset_eq]
  refine ⟨⟨h.disk, h.isOpen, h.chunkSize, h.fileSize⟩, ⟨0, ?_⟩, ?_⟩
  · simp [new, IfStream.open, h.disk, h.isOpen]
  · simp [new, h.chunkSize, h.fileSize]

/-- Readers that are alike return the same chunk and stay alike. -/
theorem Alike.nextChunk (h : Alike f chunkSize r s) :
    r.nextChunk.1 = s.nextChunk.1 ∧ Alike f chunkSize r.nextChunk.2 s.nextChunk.2 := by
  obtain ⟨hon, hstream, hmembers⟩ := h
  obtain ⟨hread, hnext⟩ := hstream.read hon.disk r.chunkSize
  have hopen : s.fileStream.isOpen = r.fileStream.isOpen := by
    obtain ⟨n, hn⟩ := hstream
    rw [hn]
  have hon' := hon.nextChunk
  rw [hmembers]
  unfold ChunkReader.nextChunk at hon' ⊢
  simp only [hopen, ← hread] at hon' ⊢
  split
  next hstop =>
    rw [if_pos hstop] at hon'
    exact ⟨rfl, hon', hstream, rfl⟩
  next hgo =>
    rw [if_neg hgo] at hon'
    split
    next hpos =>
      rw [if_pos hpos] at hon'
      exact ⟨rfl, hon', hnext, rfl⟩
    next hnil =>
      rw [if_neg hnil] at hon'
      exact ⟨rfl, hon', hnext, rfl⟩

theorem Alike.call (h : Alike f chunkSize r s) (a : ReaderCall) :
    (r.call a).1 = (s.call a).1 ∧ Alike f chunkSize (r.call a).2 (s.call a).2 := by
  have hs : On f chunkSize s := by
    obtain ⟨hon, ⟨n, hn⟩, hmembers⟩ := h
    rw [hmembers, hn]
    exact ⟨hon.disk, hon.isOpen, hon.chunkSize, hon.fileSize⟩
  cases a with
  | nextChunk => exact ⟨congrArg ReaderResult.chunk h.nextChunk.1, h.nextChunk.2⟩
  | eof =>
    have heof : r.eof = s.eof := by rw [h.members]; rfl
    exact ⟨congrArg ReaderResult.flag heof, h⟩
  | remainingBytes =>
    have hremaining : r.remainingBytes = s.remainingBytes := by rw [h.members]; rfl
    exact ⟨congrArg ReaderResult.size hremaining, h⟩
  | reset filename reopened =>
    simp only [ChunkReader.call, h.on.reset_eq, hs.reset_eq]
    obtain ⟨hon, ⟨n, hn⟩, hmembers⟩ := h
    refine ⟨trivial, ⟨hon.disk, hon.isOpen, hon.chunkSize, hon.fileSize⟩, ⟨n, ?_⟩, ?_⟩
    · rw [hn]
    · rw [hmembers]

/-- After any calls, a reset throws nothing, and from then on every call returns what it would
return for a new reader of the same file. -/
theorem reset_fresh (f : File) (chunkSize : ChunkSize) (calls later : List ReaderCall)
    (filename : String) (reopened : Option Disk) :
    let used := Calls.after call calls (new (Disk.ofFile f) chunkSize)
    (used.reset filename reopened).1 = .ok () ∧
      Calls.results call later (used.reset filename reopened).2 =
        Calls.results call later (new (Disk.ofFile f) chunkSize) := by
  intro used
  have hused : On f chunkSize used :=
    Calls.invariant_after (fun _ a h => h.call a) calls (on_new f chunkSize)
  constructor
  · rw [hused.reset_eq]
  · exact Calls.results_eq (R := Alike f chunkSize) (fun _ _ a h => h.call a) later
      (hused.alike_new filename reopened)

end ChunkReader

end ReversalBench.Common
