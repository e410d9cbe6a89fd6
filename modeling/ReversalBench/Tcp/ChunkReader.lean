import ReversalBench.Lib.Blocks
import ReversalBench.Lib.InputFile

/-! The chunk reader of the C++ TCP benchmark (`chunk_reader.cpp`). Sizes and counts
are `std::size_t`. A read that delivers less than a chunk, or nothing, sets the
reader's own end-of-file flag, whatever the reason. -/

namespace ReversalBench.Tcp

structure ChunkReader where
  mFileStream : IfStream
  mChunkSize : ℕ
  mFileSize : ℕ
  mTotalChunks : ℕ
  mChunksReadCount : ℕ
  mEof : Bool

namespace ChunkReader

/-- The ceiling division of the constructor, in 64-bit arithmetic. -/
def ceilDiv (fileSize chunkSize : ℕ) : ℕ :=
  ((BitVec.ofNat 64 fileSize + BitVec.ofNat 64 chunkSize - 1) / BitVec.ofNat 64 chunkSize).toNat

/-- The constructor, on a file that could be opened. -/
def new (disk : Disk) (chunkSize : ChunkSize) : ChunkReader where
  mFileStream := .open disk
  mChunkSize := chunkSize.val
  mFileSize := disk.size
  mTotalChunks := if disk.size = 0 then 0 else ceilDiv disk.size chunkSize.val
  mChunksReadCount := 0
  mEof := decide (disk.size = 0)

def readNextChunk (r : ChunkReader) : List UInt8 × ChunkReader :=
  if r.mEof || !r.mFileStream.isOpen || r.mFileStream.eof then ([], { r with mEof := true })
  else
    let read := r.mFileStream.read r.mChunkSize
    let bytesRead := read.1.length
    let r := { r with mFileStream := read.2 }
    if bytesRead = 0 then ([], { r with mEof := true })
    else
      (read.1, { r with
        mEof := r.mEof || decide (bytesRead < r.mChunkSize)
        mChunksReadCount := r.mChunksReadCount + 1 })

def eof (r : ChunkReader) : Bool := r.mEof

def totalChunks (r : ChunkReader) : ℕ := r.mTotalChunks

def fileSize (r : ChunkReader) : ℕ := r.mFileSize

def chunksRead (r : ChunkReader) : ℕ := r.mChunksReadCount

/-! ### The number of chunks -/

/-- File and chunk sizes are too small for the numerator of the division to wrap. -/
theorem toNat_add_sub_one {fileSize chunkSize : ℕ} (hf : fileSize < 2 ^ 63)
    (hc : chunkSize < 2 ^ 63) (hpos : 0 < chunkSize) :
    (BitVec.ofNat 64 fileSize + BitVec.ofNat 64 chunkSize - 1).toNat =
      fileSize + chunkSize - 1 := by
  have hone : (1 : BitVec 64).toNat = 1 := rfl
  simp only [BitVec.toNat_sub, BitVec.toNat_add, BitVec.toNat_ofNat, hone]
  omega

/-- The ceiling division is that of the natural numbers. -/
theorem ceilDiv_eq {fileSize chunkSize : ℕ} (hf : fileSize < 2 ^ 63) (hc : chunkSize < 2 ^ 63)
    (hpos : 0 < chunkSize) : ceilDiv fileSize chunkSize = Blocks.count chunkSize fileSize := by
  rw [ceilDiv, BitVec.toNat_udiv, toNat_add_sub_one hf hc hpos, BitVec.toNat_ofNat,
    Nat.mod_eq_of_lt (by omega), Blocks.count]

theorem totalChunks_new (disk : Disk) (chunkSize : ChunkSize) :
    (new disk chunkSize).totalChunks = Blocks.count chunkSize.val disk.size := by
  simp only [totalChunks, new]
  split
  next h => rw [h, Blocks.count_zero]
  · exact ceilDiv_eq disk.size_lt chunkSize.lt chunkSize.pos

/-! ### Reading on -/

variable {disk : Disk} {chunkSize : ChunkSize}

/-- The reader after `k` full chunks. -/
structure At (disk : Disk) (chunkSize : ChunkSize) (k : ℕ) (r : ChunkReader) : Prop where
  good : r.mFileStream.Good
  ofDisk : r.mFileStream.disk = disk
  reads : r.mFileStream.reads = k
  position : r.mFileStream.position = k * chunkSize.val
  chunkSize : r.mChunkSize = chunkSize.val
  fileSize : r.mFileSize = disk.size
  chunksRead : r.mChunksReadCount = k
  notEof : r.mEof = false

theorem at_new (h : disk.size ≠ 0) : At disk chunkSize 0 (new disk chunkSize) where
  good := IfStream.good_open disk
  ofDisk := rfl
  reads := rfl
  position := (Nat.zero_mul _).symm
  chunkSize := rfl
  fileSize := rfl
  chunksRead := rfl
  notEof := decide_eq_false h

/-- What read number `k` delivers if all reads before it delivered full chunks. -/
def delivered (disk : Disk) (chunkSize : ChunkSize) (k : ℕ) : List UInt8 :=
  disk.deliver k (k * chunkSize.val) chunkSize.val

theorem length_delivered_le (disk : Disk) (chunkSize : ChunkSize) (k : ℕ) :
    (delivered disk chunkSize k).length ≤ chunkSize.val := disk.length_deliver_le _ _ _

variable {k : ℕ} {r : ChunkReader}

theorem At.read_fst (h : At disk chunkSize k r) :
    (r.mFileStream.read r.mChunkSize).1 = delivered disk chunkSize k := by
  rw [IfStream.read_fst h.good, h.ofDisk, h.reads, h.position, h.chunkSize]
  rfl

theorem At.goesOn (h : At disk chunkSize k r) :
    (r.mEof || !r.mFileStream.isOpen || r.mFileStream.eof) = false := by
  simp [h.notEof, h.good.isOpen, IfStream.eof, h.good.eofbit]

theorem At.readNextChunk (h : At disk chunkSize k r) :
    r.readNextChunk.1 = delivered disk chunkSize k ∧
    r.readNextChunk.2.mFileSize = disk.size ∧
    r.readNextChunk.2.eof = decide ((delivered disk chunkSize k).length < chunkSize.val) := by
  have hpos := chunkSize.pos
  simp only [ChunkReader.readNextChunk, h.goesOn, Bool.false_eq_true, if_false, h.read_fst]
  split
  next hnil =>
    exact ⟨(List.length_eq_zero_iff.mp hnil).symm, h.fileSize,
      by simp [ChunkReader.eof, hnil, hpos]⟩
  · exact ⟨rfl, h.fileSize, by simp [ChunkReader.eof, h.notEof, h.chunkSize]⟩

/-- A read that delivers nothing is not counted. -/
theorem At.chunksRead_succ (h : At disk chunkSize k r) :
    r.readNextChunk.2.mChunksReadCount =
      if delivered disk chunkSize k = [] then k else k + 1 := by
  simp only [ChunkReader.readNextChunk, h.goesOn, Bool.false_eq_true, if_false, h.read_fst,
    List.length_eq_zero_iff]
  split <;> simp [h.chunksRead]

/-- A full chunk leaves the reader ready for the next one. -/
theorem At.succ (h : At disk chunkSize k r)
    (hfull : (delivered disk chunkSize k).length = chunkSize.val) :
    At disk chunkSize (k + 1) r.readNextChunk.2 := by
  have hne : (delivered disk chunkSize k).length ≠ 0 := hfull ▸ chunkSize.pos.ne'
  have hread : r.readNextChunk.2 = { r with
      mFileStream := (r.mFileStream.read r.mChunkSize).2
      mEof := false
      mChunksReadCount := r.mChunksReadCount + 1 } := by
    simp only [ChunkReader.readNextChunk, h.goesOn, Bool.false_eq_true, if_false, h.read_fst, hne]
    simp [h.notEof, h.chunkSize, hfull]
  rw [hread]
  constructor
  · exact IfStream.read_good h.good (by rw [h.read_fst, hfull, h.chunkSize])
  · exact (IfStream.read_disk _ _).trans h.ofDisk
  · rw [IfStream.read_reads h.good, h.reads]
  · rw [IfStream.read_position, h.read_fst, h.position, hfull, Nat.succ_mul]
  · exact h.chunkSize
  · exact h.fileSize
  · exact congrArg Nat.succ h.chunksRead
  · rfl

/-! ### The chunks of a run -/

/-- The chunks read from number `k` on, up to the first one that is not full or the
last of `n`. A read that delivers nothing is no chunk. -/
def chunksFrom (disk : Disk) (chunkSize : ChunkSize) : (n k : ℕ) → List (List UInt8)
  | 0, _ => []
  | n + 1, k =>
    let chunk := delivered disk chunkSize k
    if chunk = [] then []
    else if chunk.length < chunkSize.val then [chunk]
    else chunk :: chunksFrom disk chunkSize n (k + 1)

/-- The chunks of a reader that is asked for at most `totalChunks` of them. -/
def chunks (disk : Disk) (chunkSize : ChunkSize) : List (List UInt8) :=
  chunksFrom disk chunkSize (Blocks.count chunkSize.val disk.size) 0

theorem chunksFrom_of_nil {n k : ℕ} (h : delivered disk chunkSize k = []) :
    chunksFrom disk chunkSize n k = [] := by
  cases n with
  | zero => rfl
  | succ n => simp [chunksFrom, h]

theorem chunksFrom_succ {n k : ℕ} (h : delivered disk chunkSize k ≠ []) :
    chunksFrom disk chunkSize (n + 1) k = delivered disk chunkSize k ::
      if (delivered disk chunkSize k).length < chunkSize.val then []
      else chunksFrom disk chunkSize n (k + 1) := by
  simp only [chunksFrom, h, if_false]
  split <;> rfl

theorem length_le_of_mem_chunksFrom {n : ℕ} {c : List UInt8} :
    ∀ {k}, c ∈ chunksFrom disk chunkSize n k → c.length ≤ chunkSize.val := by
  induction n with
  | zero => intro k h; cases h
  | succ n ih =>
    intro k h
    rw [chunksFrom] at h
    split at h
    · cases h
    · split at h
      · rw [List.mem_singleton.mp h]
        exact length_delivered_le disk chunkSize k
      · rcases List.mem_cons.mp h with rfl | h
        · exact length_delivered_le disk chunkSize k
        · exact ih h

/-! ### Reading a file that stays unchanged -/

variable {f : File}

theorem delivered_ofFile (hk : k < (Blocks.blocks chunkSize.val f.bytes).length) :
    delivered (Disk.ofFile f) chunkSize k = (Blocks.blocks chunkSize.val f.bytes)[k] :=
  (Blocks.getElem_blocks hk).symm

theorem delivered_ofFile_ne_nil (hk : k < (Blocks.blocks chunkSize.val f.bytes).length) :
    delivered (Disk.ofFile f) chunkSize k ≠ [] := by
  rw [delivered_ofFile hk]
  exact Blocks.ne_nil_of_mem_blocks chunkSize.pos (List.getElem_mem hk)

/-- A chunk that is not the last one is full. -/
theorem delivered_full (hk : k + 1 < (Blocks.blocks chunkSize.val f.bytes).length) :
    (delivered (Disk.ofFile f) chunkSize k).length = chunkSize.val := by
  rw [delivered_ofFile (Nat.lt_of_succ_lt hk), Blocks.length_getElem_blocks]
  rw [Blocks.length_blocks, Blocks.lt_count_iff chunkSize.pos, Nat.succ_mul] at hk
  simp only [Blocks.size]
  omega

/-- The last chunk ends where the file ends. -/
theorem delivered_last (hk : k + 1 = (Blocks.blocks chunkSize.val f.bytes).length) :
    k * chunkSize.val + (delivered (Disk.ofFile f) chunkSize k).length = f.bytes.length := by
  have hlt : k < (Blocks.blocks chunkSize.val f.bytes).length := by omega
  rw [delivered_ofFile hlt, Blocks.length_getElem_blocks]
  have hle : f.bytes.length ≤ (k + 1) * chunkSize.val := by
    rw [← Blocks.count_le_iff chunkSize.pos, ← Blocks.length_blocks, hk]
  rw [Blocks.length_blocks, Blocks.lt_count_iff chunkSize.pos] at hlt
  rw [Nat.succ_mul] at hle
  simp only [Blocks.size]
  omega

/-- An unchanged file is read block by block. -/
theorem chunksFrom_ofFile (f : File) (n k : ℕ)
    (hn : n + k = Blocks.count chunkSize.val f.bytes.length) :
    chunksFrom (Disk.ofFile f) chunkSize n k =
      (Blocks.blocks chunkSize.val f.bytes).drop k := by
  induction n generalizing k with
  | zero =>
    rw [List.drop_eq_nil_of_le (by rw [Blocks.length_blocks]; omega)]
    rfl
  | succ n ih =>
    have hlt : k < (Blocks.blocks chunkSize.val f.bytes).length := by
      rw [Blocks.length_blocks]; omega
    rw [chunksFrom_succ (delivered_ofFile_ne_nil hlt), List.drop_eq_getElem_cons hlt,
      ← delivered_ofFile hlt, ← ih (k + 1) (by omega)]
    congr 1
    split
    next hshort =>
      -- a short block is the last one
      have hlast : n = 0 := by
        by_contra hmore
        refine hshort.ne (delivered_full ?_)
        rw [Blocks.length_blocks]
        omega
      rw [hlast]
      rfl
    · rfl

theorem chunks_ofFile (f : File) (chunkSize : ChunkSize) :
    chunks (Disk.ofFile f) chunkSize = Blocks.blocks chunkSize.val f.bytes := by
  have h := @chunksFrom_ofFile chunkSize f (Blocks.count chunkSize.val f.bytes.length) 0 rfl
  rwa [List.drop_zero] at h

/-! ### Reading less than the file -/

/-- Every read that is made delivers the block of the file that is due, or `bound` bytes
or more, after which nothing is read. A read is made once all reads before it delivered
their blocks and these were shorter than `bound`. -/
def ReadsBlocks (disk : Disk) (chunkSize : ChunkSize) (bound k : ℕ) : Prop :=
  ∀ j, k ≤ j → j < Blocks.count chunkSize.val disk.size →
    (∀ i, k ≤ i → i < j → (delivered disk chunkSize i).length =
      Blocks.size chunkSize.val disk.size i ∧ (delivered disk chunkSize i).length < bound) →
    (delivered disk chunkSize j).length = Blocks.size chunkSize.val disk.size j ∨
      bound ≤ (delivered disk chunkSize j).length

/-- The condition for the first read and for those after it. -/
theorem readsBlocks_iff {bound : ℕ} (hk : k < Blocks.count chunkSize.val disk.size) :
    ReadsBlocks disk chunkSize bound k ↔
      bound ≤ (delivered disk chunkSize k).length ∨
      ((delivered disk chunkSize k).length = Blocks.size chunkSize.val disk.size k ∧
        ReadsBlocks disk chunkSize bound (k + 1)) := by
  constructor
  · intro h
    rcases Nat.lt_or_ge (delivered disk chunkSize k).length bound with hlt | hge
    · have hsize := (h k le_rfl hk (fun i hki hik => absurd hik (by omega))).resolve_right
        (by omega)
      refine .inr ⟨hsize, fun j hj hjc hprev => h j (by omega) hjc fun i hi hij => ?_⟩
      rcases Nat.eq_or_lt_of_le hi with rfl | hi
      · exact ⟨hsize, hlt⟩
      · exact hprev i hi hij
    · exact .inl hge
  · rintro (hge | ⟨hsize, h⟩) j hj hjc hprev
    · rcases Nat.eq_or_lt_of_le hj with rfl | hj
      · exact .inr hge
      · exact absurd (hprev k le_rfl hj).2 (by omega)
    · rcases Nat.eq_or_lt_of_le hj with rfl | hj
      · exact .inl hsize
      · exact h j hj hjc fun i hi hij => hprev i (by omega) hij

/-- Unless a chunk is too long, the chunks read from number `k` on are as many and as
long as the rest of the file if and only if every read delivers its block. -/
theorem chunksFrom_whole_iff (disk : Disk) (chunkSize : ChunkSize) {bound : ℕ}
    (hbound : 0 < bound) (n : ℕ) :
    ∀ k, n + k = Blocks.count chunkSize.val disk.size →
      (((∀ c ∈ chunksFrom disk chunkSize n k, c.length < bound) →
        (chunksFrom disk chunkSize n k).length = n ∧
          ((chunksFrom disk chunkSize n k).map List.length).sum =
            disk.size - k * chunkSize.val) ↔
        ReadsBlocks disk chunkSize bound k) := by
  induction n with
  | zero =>
    intro k hk
    have hle := (Blocks.count_le_iff chunkSize.pos).mp (Nat.zero_add k ▸ hk).ge
    refine iff_of_true (fun _ => ⟨rfl, ?_⟩) fun j hj hjc => absurd hjc (by omega)
    simp only [chunksFrom, List.map_nil, List.sum_nil]
    omega
  | succ n ih =>
    intro k hk
    have hlt := (Blocks.lt_count_iff chunkSize.pos).mp (by omega : k < Blocks.count _ disk.size)
    have hsize : Blocks.size chunkSize.val disk.size k =
      min chunkSize.val (disk.size - k * chunkSize.val) := rfl
    have hpos := chunkSize.pos
    rw [readsBlocks_iff (by omega)]
    by_cases hempty : delivered disk chunkSize k = []
    · -- nothing is read, and no chunk is too long
      have hzero : (delivered disk chunkSize k).length = 0 := by rw [hempty]; rfl
      rw [chunksFrom_of_nil hempty]
      refine iff_of_false (fun h => ?_) ?_
      · exact absurd (h fun c hc => absurd hc List.not_mem_nil).1 (Nat.succ_ne_zero n).symm
      · rw [hzero, hsize]
        omega
    rw [chunksFrom_succ hempty]
    have hle := length_delivered_le disk chunkSize k
    rcases Nat.lt_or_ge (delivered disk chunkSize k).length bound with hb | hb
    · rw [or_iff_right (not_le.mpr hb)]
      by_cases hshort : (delivered disk chunkSize k).length < chunkSize.val
      · -- the reader stops here, which is right if this is the last block
        rw [if_pos hshort]
        have hall : ∀ c ∈ [delivered disk chunkSize k], c.length < bound := by simpa using hb
        constructor
        · intro h
          obtain ⟨hone, hsum⟩ := h hall
          simp only [List.length_singleton, List.map_singleton, List.sum_singleton] at hone hsum
          refine ⟨by omega, fun j hj hjc => absurd hjc (by omega)⟩
        · rintro ⟨hlen, -⟩ -
          have hend : Blocks.count chunkSize.val disk.size ≤ k + 1 := by
            rw [Blocks.count_le_iff chunkSize.pos, Nat.succ_mul]
            omega
          simp only [List.length_singleton, List.map_singleton, List.sum_singleton]
          omega
      · -- a full chunk is a block unless it goes beyond the end of the file
        have hfull : (delivered disk chunkSize k).length = chunkSize.val := by omega
        rw [if_neg hshort, List.forall_mem_cons, and_iff_right hb, List.length_cons, List.map_cons,
          List.sum_cons, hfull, hsize, ← ih (k + 1) (by omega), Nat.succ_mul]
        by_cases hroom : chunkSize.val ≤ disk.size - k * chunkSize.val
        · rw [and_iff_right (min_eq_left hroom).symm]
          refine imp_congr_right fun _ => and_congr ?_ ?_ <;> omega
        · have hn : n = 0 := by
            have hend : Blocks.count chunkSize.val disk.size ≤ k + 1 := by
              rw [Blocks.count_le_iff chunkSize.pos, Nat.succ_mul]
              omega
            omega
          subst hn
          refine iff_of_false (fun h => ?_) (by omega)
          have hsum := (h fun c hc => absurd hc List.not_mem_nil).2
          omega
    · -- a chunk that is too long
      refine iff_of_true (fun h => absurd (h _ List.mem_cons_self) (by omega)) (.inl hb)

/-- The chunks are as many and as long as the file if and only if every read delivers
its block. -/
theorem chunks_whole_iff (disk : Disk) (chunkSize : ChunkSize) {bound : ℕ} (hbound : 0 < bound) :
    ((∀ c ∈ chunks disk chunkSize, c.length < bound) →
      (chunks disk chunkSize).length = Blocks.count chunkSize.val disk.size ∧
        ((chunks disk chunkSize).map List.length).sum = disk.size) ↔
      ReadsBlocks disk chunkSize bound 0 := by
  have h := chunksFrom_whole_iff disk chunkSize hbound (Blocks.count chunkSize.val disk.size) 0 rfl
  rwa [Nat.zero_mul, Nat.sub_zero] at h

end ChunkReader

end ReversalBench.Tcp
