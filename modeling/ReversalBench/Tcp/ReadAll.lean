import ReversalBench.Tcp.ChunkReader

/-! All chunks of a file that stays unchanged, as the C++ TCP reader delivers them: call by
call, up to the top of the range of file and chunk sizes. -/

namespace ReversalBench.Tcp.ChunkReader

/-- The reader after `n` calls of `readNextChunk`. -/
def after (r : ChunkReader) : ℕ → ChunkReader
  | 0 => r
  | n + 1 => (after r n).readNextChunk.2

/-- What call number `n` returns. -/
def call (r : ChunkReader) (n : ℕ) : List UInt8 := (r.after n).readNextChunk.1

/-- The chunks are the blocks of the file, as many as were counted at construction, and the
end of the file is noticed in time. -/
structure DeliversFile (f : File) (chunkSize : ChunkSize) (r : ChunkReader) : Prop where
  noWrap : (BitVec.ofNat 64 f.bytes.length + BitVec.ofNat 64 chunkSize.val - 1).toNat =
    f.bytes.length + chunkSize.val - 1
  totalChunks : r.totalChunks = (f.bytes.length + chunkSize.val - 1) / chunkSize.val
  nonempty : ∀ n, n < r.totalChunks → r.call n ≠ []
  flatten : ((List.range r.totalChunks).map r.call).flatten = f.bytes
  full : ∀ n, n + 1 < r.totalChunks → (r.call n).length = chunkSize.val
  length_le : ∀ n, (r.call n).length ≤ chunkSize.val
  later : ∀ n, r.totalChunks ≤ n → r.call n = []
  chunksRead_le : ∀ n, (r.after n).chunksRead ≤ r.totalChunks
  eof_of_empty : f.bytes = [] → ∀ n, (r.after n).eof = true
  eof_of_dvd : f.bytes ≠ [] → chunkSize.val ∣ f.bytes.length →
    ∀ n, (r.after n).eof = true ↔ r.totalChunks + 1 ≤ n
  eof_of_not_dvd : ¬ chunkSize.val ∣ f.bytes.length →
    ∀ n, (r.after n).eof = true ↔ r.totalChunks ≤ n

/-! ### One call -/

variable {f : File} {chunkSize : ChunkSize} {k n : ℕ} {r : ChunkReader}

theorem readNextChunk_of_eof (h : r.mEof = true) : r.readNextChunk = ([], r) := by
  have hr : { r with mEof := true } = r := by rw [← h]
  simp [readNextChunk, h, hr]

theorem length_delivered_ofFile (f : File) (chunkSize : ChunkSize) (k : ℕ) :
    (delivered (Disk.ofFile f) chunkSize k).length =
      Blocks.size chunkSize.val f.bytes.length k := by
  simp [delivered, Blocks.size]

/-- Where the reader is after `n` calls: inside the file, or at its end and aware of it. -/
inductive Progress (f : File) (chunkSize : ChunkSize) (n : ℕ) (r : ChunkReader) : Prop where
  | inside (at_n : At (Disk.ofFile f) chunkSize n r) (nonempty : f.bytes ≠ [])
      (le : n * chunkSize.val ≤ f.bytes.length)
  | ended (eof : r.mEof = true)
      (chunksRead : r.mChunksReadCount = Blocks.count chunkSize.val f.bytes.length)
      (late : Blocks.count chunkSize.val f.bytes.length ≤ n)
      (later : f.bytes ≠ [] → chunkSize.val ∣ f.bytes.length →
        Blocks.count chunkSize.val f.bytes.length < n)

theorem progress_new (f : File) (chunkSize : ChunkSize) :
    Progress f chunkSize 0 (new (Disk.ofFile f) chunkSize) := by
  by_cases hf : f.bytes = []
  · refine .ended ?_ ?_ ?_ (fun h => absurd hf h)
    · simp [new, hf]
    · simp [new, hf]
    · simp [hf]
  · have hlen : (Disk.ofFile f).size ≠ 0 := mt List.length_eq_zero_iff.mp hf
    exact .inside (at_new hlen) hf (by simp)

/-- A call returns the block that is due, or nothing behind the last one. -/
theorem Progress.read (h : Progress f chunkSize n r) :
    r.readNextChunk.1 = delivered (Disk.ofFile f) chunkSize n := by
  cases h with
  | inside at_n _ _ => exact at_n.readNextChunk.1
  | ended eof _ late _ =>
    have hend := (Blocks.count_le_iff chunkSize.pos).mp late
    rw [readNextChunk_of_eof eof]
    simp [delivered, List.drop_eq_nil_of_le hend]

/-- A call inside the file reads a full block, or the last one, or finds out that there is
none. -/
theorem Progress.step (h : Progress f chunkSize n r) :
    Progress f chunkSize (n + 1) r.readNextChunk.2 := by
  have hpos := chunkSize.pos
  cases h with
  | ended eof chunksRead late later =>
    rw [readNextChunk_of_eof eof]
    exact .ended eof chunksRead (by omega) fun hf hdvd => by have := later hf hdvd; omega
  | inside at_n nonempty le =>
    have hsize := length_delivered_ofFile f chunkSize n
    rw [Blocks.size] at hsize
    have hcount := at_n.chunksRead_succ
    have heof := at_n.readNextChunk.2.2
    by_cases hfull : (delivered (Disk.ofFile f) chunkSize n).length = chunkSize.val
    · refine .inside (at_n.succ hfull) nonempty ?_
      rw [Nat.succ_mul]
      omega
    have heof : r.readNextChunk.2.mEof = true :=
      heof.trans (decide_eq_true (by omega))
    by_cases hend : n * chunkSize.val = f.bytes.length
    · -- the file ended with the block before
      have hnil : delivered (Disk.ofFile f) chunkSize n = [] :=
        List.length_eq_zero_iff.mp (by omega)
      have hn : Blocks.count chunkSize.val f.bytes.length = n := by
        have := (Blocks.count_mul_eq_iff hpos).mpr (Dvd.intro_left n hend)
        exact Nat.eq_of_mul_eq_mul_right hpos (this.trans hend.symm)
      rw [hnil, if_pos rfl] at hcount
      exact .ended heof (hcount.trans hn.symm) (by omega) fun _ _ => by omega
    · -- a short block is the last one
      have hn : Blocks.count chunkSize.val f.bytes.length = n + 1 := by
        rw [Blocks.count_eq_iff hpos, Nat.succ_mul]
        omega
      have hne : delivered (Disk.ofFile f) chunkSize n ≠ [] := by
        rw [← List.length_pos_iff_ne_nil]
        omega
      rw [if_neg hne] at hcount
      refine .ended heof (hcount.trans hn.symm) (by omega) fun _ hdvd => ?_
      have := (Blocks.count_mul_eq_iff hpos).mpr hdvd
      rw [hn, Nat.succ_mul] at this
      omega

theorem Progress.chunksRead_le (h : Progress f chunkSize n r) :
    r.chunksRead ≤ Blocks.count chunkSize.val f.bytes.length := by
  cases h with
  | inside at_n _ le =>
    refine at_n.chunksRead.le.trans (Nat.le_of_mul_le_mul_right ?_ chunkSize.pos)
    exact le.trans ((Blocks.count_le_iff chunkSize.pos).mp le_rfl)
  | ended _ chunksRead _ _ => exact chunksRead.le

/-! ### All calls -/

theorem progress_after (f : File) (chunkSize : ChunkSize) (n : ℕ) :
    Progress f chunkSize n ((new (Disk.ofFile f) chunkSize).after n) := by
  induction n with
  | zero => exact progress_new f chunkSize
  | succ n ih => exact ih.step

theorem call_eq (f : File) (chunkSize : ChunkSize) (n : ℕ) :
    (new (Disk.ofFile f) chunkSize).call n = delivered (Disk.ofFile f) chunkSize n :=
  (progress_after f chunkSize n).read

/-- Reading is over after `n` calls. -/
theorem Progress.eof_iff (h : Progress f chunkSize n r) : r.eof = true ↔
    f.bytes = [] ∨ Blocks.count chunkSize.val f.bytes.length < n ∨
      (Blocks.count chunkSize.val f.bytes.length = n ∧ ¬ chunkSize.val ∣ f.bytes.length) := by
  have hpos := chunkSize.pos
  cases h with
  | inside at_n nonempty le =>
    refine iff_of_false (by simp [eof, at_n.notEof]) ?_
    have hle : n ≤ Blocks.count chunkSize.val f.bytes.length :=
      Nat.le_of_mul_le_mul_right (le.trans ((Blocks.count_le_iff hpos).mp le_rfl)) hpos
    rintro (hnil | hlt | ⟨heq, hdvd⟩)
    · exact nonempty hnil
    · omega
    · have hend := (Blocks.count_le_iff hpos).mp heq.le
      exact hdvd (Dvd.intro_left n (le_antisymm le hend))
  | ended eof _ late later =>
    refine iff_of_true eof ?_
    by_cases hf : f.bytes = []
    · exact .inl hf
    · by_cases hdvd : chunkSize.val ∣ f.bytes.length
      · exact .inr (.inl (later hf hdvd))
      · rcases Nat.eq_or_lt_of_le late with heq | hlt
        · exact .inr (.inr ⟨heq, hdvd⟩)
        · exact .inr (.inl hlt)

/-- For every file and every chunk size that a stream and a vector can have, the reader
delivers exactly the chunks it counted. -/
theorem reader_deliversFile (f : File) (chunkSize : ChunkSize) :
    DeliversFile f chunkSize (new (Disk.ofFile f) chunkSize) := by
  have hpos := chunkSize.pos
  have htotal : (new (Disk.ofFile f) chunkSize).totalChunks =
      Blocks.count chunkSize.val f.bytes.length := totalChunks_new _ _
  have hlt : ∀ {n}, n < Blocks.count chunkSize.val f.bytes.length ↔
    n * chunkSize.val < f.bytes.length := Blocks.lt_count_iff hpos
  have hsize : ∀ n, ((new (Disk.ofFile f) chunkSize).call n).length =
      min chunkSize.val (f.bytes.length - n * chunkSize.val) := fun n => by
    rw [call_eq, length_delivered_ofFile, Blocks.size]
  have heof := fun n => (progress_after f chunkSize n).eof_iff
  constructor
  · exact toNat_add_sub_one f.length_lt chunkSize.lt hpos
  · exact htotal
  · intro n hn
    rw [htotal, hlt] at hn
    rw [← List.length_pos_iff_ne_nil, hsize]
    omega
  · rw [htotal, funext (call_eq f chunkSize)]
    exact Blocks.flatten_blocks hpos f.bytes
  · intro n hn
    rw [htotal, hlt, Nat.succ_mul] at hn
    rw [hsize]
    omega
  · intro n
    rw [hsize]
    omega
  · intro n hn
    rw [htotal, Blocks.count_le_iff hpos] at hn
    rw [← List.length_eq_zero_iff, hsize]
    omega
  · intro n
    rw [htotal]
    exact (progress_after f chunkSize n).chunksRead_le
  · intro hf n
    exact (heof n).mpr (.inl hf)
  · intro hf hdvd n
    rw [heof, htotal, or_iff_right hf]
    simp only [hdvd, not_true_eq_false, and_false, or_false, Nat.lt_iff_add_one_le]
  · intro hdvd n
    have hf : f.bytes ≠ [] := by
      rintro hnil
      exact hdvd (by simp [hnil])
    rw [heof, htotal, or_iff_right hf]
    simp only [hdvd, not_false_eq_true, and_true]
    omega

end ReversalBench.Tcp.ChunkReader
