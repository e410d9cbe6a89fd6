import ReversalBench.Common.ReadLoop
import ReversalBench.Grpc.System
import ReversalBench.Capnp.Client

/-! Reads that fail. Both clients have a branch for an empty chunk before the end of the
file; whether they get there depends on what their chunk reader says about a read that
delivered nothing. -/

namespace ReversalBench

open StateTransition (Reaches)
open Common (ChunkReader ReadLoop)

/-- The next read of the stream delivers nothing, and bytes of the file are missing. -/
def FailsNext (r : ChunkReader) : Prop :=
  (r.fileStream.read r.chunkSize).1 = [] ∧ r.totalBytesRead < r.fileSize

/-- A read that fails is not the end of the file, and both clients log it; the end of the file
is found only behind the last byte. -/
structure ReportsFailure (r : ChunkReader) : Prop where
  notEof : FailsNext r → r.nextChunk.1 = [] ∧ r.nextChunk.2.eof = false
  grpc : FailsNext r → ∀ (P : Grpc.Params) (s : Grpc.ClientState) (now : ℤ), s.reader = r →
    (s.prepare P now).metricsCollector.errors = s.metricsCollector.errors ++
      ["gRPC Client (Writer): Error reading chunk or empty chunk before EOF."]
  capnp : FailsNext r → ∀ (env : Capnp.Env) (c : Capnp.Client), c.reader = r →
    (c.round env).metrics.errors = c.metrics.errors ++ ["Read empty chunk but not EOF."]
  eof : r.nextChunk.1 = [] → r.nextChunk.2.eof = true → r.fileSize ≤ r.totalBytesRead

/-- Until all bytes of the file have been delivered, every read delivers a full chunk or the
rest of the file. -/
def NoFailure (disk : Disk) (chunkSize : ChunkSize) : Prop :=
  ∀ k, (∀ i, i < k → (disk.chunk chunkSize.val i).length = chunkSize.val) →
    k * chunkSize.val < disk.size →
    (disk.chunk chunkSize.val k).length = chunkSize.val ∨
      disk.size ≤ k * chunkSize.val + (disk.chunk chunkSize.val k).length

/-! ### One read -/

/-- A reader in the loop has not seen an empty chunk. -/
theorem reportsFailure_iff {r : ChunkReader} (hflag : r.eofFlag = false)
    (hopen : r.fileStream.isOpen = true) : ReportsFailure r ↔ ¬ FailsNext r := by
  constructor
  · intro h hfails
    have hnot := (h.notEof hfails).2
    rw [ChunkReader.nextChunk_of_nil hflag hopen hfails.1] at hnot
    cases hnot
  · intro hnot
    refine ⟨fun h => absurd h hnot, fun h => absurd h hnot, fun h => absurd h hnot, ?_⟩
    intro hnil _
    by_contra hlt
    refine hnot ⟨?_, not_le.mp hlt⟩
    by_contra hne
    rw [ChunkReader.nextChunk_of_ne_nil hflag hopen hne] at hnil
    exact hne hnil

/-! ### The loop and the clients -/

/-- The writer of the gRPC client takes a round of the loop when it prepares a chunk. -/
theorem prepare_readLoop (P : Grpc.Params) (s : Grpc.ClientState) (now : ℤ)
    (chunks : List (List UInt8)) :
    ∃ loop, ReadLoop.next ⟨s.reader, chunks, none⟩ = some loop ∧
      loop.reader = (s.prepare P now).reader ∧
      loop.chunks = chunks ++ (s.prepare P now).writer.called.map Grpc.ChunkRequest.dataChunk ∧
      (loop.exit = some .endOfFile ↔ (s.prepare P now).writer = .finish) ∧
      (loop.exit = some .emptyChunk ↔ (s.prepare P now).writer = .done) := by
  simp only [ReadLoop.next, Grpc.ClientState.prepare]
  split
  · exact ⟨_, rfl, rfl, by simp [Grpc.WriterPc.called], by simp, by simp⟩
  · split
    · exact ⟨_, rfl, rfl, by simp [Grpc.WriterPc.called], by simp, by simp⟩
    · exact ⟨_, rfl, rfl, by simp [Grpc.WriterPc.called], by simp, by simp⟩

/-- A round of the Cap'n Proto client is a round of the loop, as far as it reads. -/
theorem round_readLoop (env : Capnp.Env) (c : Capnp.Client) (chunks : List (List UInt8)) :
    ∃ loop sent, ReadLoop.next ⟨c.reader, chunks, none⟩ = some loop ∧
      loop.reader = (c.round env).reader ∧ loop.chunks = chunks ++ sent ∧
      (c.round env).calls = c.calls ++ sent.map .processChunk ∧
      (loop.exit = none ↔ sent ≠ []) := by
  simp only [ReadLoop.next, Capnp.Client.round]
  split
  · exact ⟨_, [], rfl, rfl, by simp, by simp [Capnp.Client.leave], by simp⟩
  · split
    · exact ⟨_, [], rfl, rfl, by simp, by simp [Capnp.Client.leave, Capnp.Client.logError], by simp⟩
    · obtain ⟨hreader, hcalls⟩ := Capnp.Client.exchange_reader_calls env
        { c with reader := c.reader.nextChunk.2 } c.reader.nextChunk.1
      exact ⟨_, [c.reader.nextChunk.1], rfl, hreader.symm, rfl, hcalls, by simp⟩

/-! ### The reads of the loop -/

namespace Common.ReadLoop

variable {disk : Disk} {chunkSize : ChunkSize} {k : ℕ} {s t : ReadLoop}

/-- What the states of the loop have in common. -/
structure Reading (disk : Disk) (chunkSize : ChunkSize) (s : ReadLoop) : Prop where
  ofChunkSize : s.reader.chunkSize = chunkSize.val
  fileSize : s.reader.fileSize = disk.size
  eofFlag : s.reader.eofFlag = false
  isOpen : s.reader.fileStream.isOpen = true
  exit : s.exit = none

/-- After `k` full chunks. -/
structure Full (disk : Disk) (chunkSize : ChunkSize) (k : ℕ) (s : ReadLoop) : Prop extends
    Reading disk chunkSize s where
  good : s.reader.fileStream.Good
  ofDisk : s.reader.fileStream.disk = disk
  reads : s.reader.fileStream.reads = k
  position : s.reader.fileStream.position = k * chunkSize.val
  total : s.reader.totalBytesRead = k * chunkSize.val
  full : ∀ i, i < k → (disk.chunk chunkSize.val i).length = chunkSize.val

/-- After `k` full chunks and a short one. -/
structure Short (disk : Disk) (chunkSize : ChunkSize) (k : ℕ) (s : ReadLoop) : Prop extends
    Reading disk chunkSize s where
  bad : s.reader.fileStream.Bad
  total : s.reader.totalBytesRead = k * chunkSize.val + (disk.chunk chunkSize.val k).length
  full : ∀ i, i < k → (disk.chunk chunkSize.val i).length = chunkSize.val
  short : (disk.chunk chunkSize.val k).length < chunkSize.val

theorem full_start (disk : Disk) (chunkSize : ChunkSize) :
    Full disk chunkSize 0 (start (.new disk chunkSize)) where
  ofChunkSize := rfl
  fileSize := rfl
  eofFlag := rfl
  isOpen := rfl
  exit := rfl
  good := IfStream.good_open disk
  ofDisk := rfl
  reads := rfl
  position := (Nat.zero_mul _).symm
  total := (Nat.zero_mul _).symm
  full i hi := absurd hi (Nat.not_lt_zero i)

theorem Full.read (h : Full disk chunkSize k s) :
    (s.reader.fileStream.read s.reader.chunkSize).1 = disk.chunk chunkSize.val k := by
  rw [IfStream.read_fst h.good, h.ofDisk, h.reads, h.position, h.ofChunkSize]
  rfl

theorem Short.read (h : Short disk chunkSize k s) :
    (s.reader.fileStream.read s.reader.chunkSize).1 = [] := IfStream.read_of_bad h.bad _

/-- An empty read ends the loop. -/
theorem Reading.next_nil (h : Reading disk chunkSize s)
    (hnil : (s.reader.fileStream.read s.reader.chunkSize).1 = []) :
    ∃ t, next s = some t ∧ t.exit = some .endOfFile := by
  have hread := ChunkReader.nextChunk_of_nil h.eofFlag h.isOpen hnil
  exact ⟨_, next_of_nil h.exit (by rw [hread]) (by rw [hread]; rfl), rfl⟩

/-- A read that delivers something goes on. -/
theorem Full.next (h : Full disk chunkSize k s) (hne : disk.chunk chunkSize.val k ≠ []) :
    ∃ t, next s = some t ∧ (Full disk chunkSize (k + 1) t ∨ Short disk chunkSize k t) := by
  have hread := h.read
  have hchunk := ChunkReader.nextChunk_of_ne_nil h.eofFlag h.isOpen (hread ▸ hne)
  have hnext := next_of_ne_nil h.exit (by rw [hchunk, hread]; exact hne)
  have hreading : Reading disk chunkSize
      ⟨s.reader.nextChunk.2, s.chunks ++ [s.reader.nextChunk.1], none⟩ := by
    rw [hchunk]
    exact ⟨h.ofChunkSize, h.fileSize, h.eofFlag, (IfStream.read_isOpen _ _).trans h.isOpen, rfl⟩
  have htotal : s.reader.nextChunk.2.totalBytesRead =
      k * chunkSize.val + (disk.chunk chunkSize.val k).length := by
    rw [ChunkReader.nextChunk_totalBytesRead, h.total, hchunk, hread]
  refine ⟨_, hnext, ?_⟩
  rcases Nat.eq_or_lt_of_le (disk.length_chunk_le chunkSize.val k) with hfull | hshort
  · refine .inl ⟨hreading, ?_, ?_, ?_, ?_, ?_, ?_⟩
    · rw [hchunk]
      exact IfStream.read_good h.good (by rw [hread, hfull, h.ofChunkSize])
    · rw [hchunk]
      exact (IfStream.read_disk _ _).trans h.ofDisk
    · rw [hchunk]
      exact (IfStream.read_reads h.good _).trans (congrArg Nat.succ h.reads)
    · rw [hchunk, Nat.succ_mul]
      show (s.reader.fileStream.read s.reader.chunkSize).2.position = _
      rw [IfStream.read_position, h.position, hread, hfull]
    · rw [htotal, hfull, Nat.succ_mul]
    · intro i hi
      rcases Nat.lt_succ_iff_lt_or_eq.mp hi with hlt | rfl
      · exact h.full i hlt
      · exact hfull
  · refine .inr ⟨hreading, ?_, htotal, h.full, hshort⟩
    rw [hchunk]
    exact IfStream.read_bad h.good (by rw [hread, h.ofChunkSize]; exact hshort)

/-- In the loop the reads were full, except possibly the last one. -/
theorem reads_of_reaches (h : Reaches next (start (.new disk chunkSize)) s) :
    s.exit ≠ none ∨ ∃ k, Full disk chunkSize k s ∨ Short disk chunkSize k s := by
  refine Machine.invariant_reaches
    (P := fun s => s.exit ≠ none ∨ ∃ k, Full disk chunkSize k s ∨ Short disk chunkSize k s)
    ?_ (.inr ⟨0, .inl (full_start disk chunkSize)⟩) h
  rintro s t (hexit | ⟨k, hs | hs⟩) hnext
  · obtain ⟨exit, he⟩ := Option.ne_none_iff_exists'.mp hexit
    rw [next_of_exit he] at hnext
    cases hnext
  · by_cases hnil : disk.chunk chunkSize.val k = []
    · obtain ⟨u, hu, hexit⟩ := hs.toReading.next_nil (hs.read.trans hnil)
      cases hnext.symm.trans hu
      exact .inl (by simp [hexit])
    · obtain ⟨u, hu, hread⟩ := hs.next hnil
      cases hnext.symm.trans hu
      exact .inr (hread.elim (fun h => ⟨k + 1, .inl h⟩) fun h => ⟨k, .inr h⟩)
  · obtain ⟨u, hu, hexit⟩ := hs.toReading.next_nil hs.read
    cases hnext.symm.trans hu
    exact .inl (by simp [hexit])

/-- As long as the reads are full, the loop goes on. -/
theorem reaches_full (h : ∀ i, i < k → (disk.chunk chunkSize.val i).length = chunkSize.val) :
    ∃ s, Reaches next (start (.new disk chunkSize)) s ∧ Full disk chunkSize k s := by
  induction k with
  | zero => exact ⟨_, .refl, full_start disk chunkSize⟩
  | succ k ih =>
    obtain ⟨s, hs, hfull⟩ := ih fun i hi => h i (Nat.lt_succ_of_lt hi)
    have hk := h k (Nat.lt_succ_self k)
    have hpos := chunkSize.pos
    obtain ⟨t, ht, hread⟩ := hfull.next (by rw [← List.length_pos_iff_ne_nil]; omega)
    exact ⟨t, hs.tail ht, hread.resolve_right fun hshort => by have := hshort.short; omega⟩

/-! ### Failures -/

theorem Full.failsNext_iff (h : Full disk chunkSize k s) :
    FailsNext s.reader ↔ disk.chunk chunkSize.val k = [] ∧ k * chunkSize.val < disk.size := by
  rw [FailsNext, h.read, h.total, h.fileSize]

theorem Short.failsNext_iff (h : Short disk chunkSize k s) :
    FailsNext s.reader ↔
      k * chunkSize.val + (disk.chunk chunkSize.val k).length < disk.size := by
  rw [FailsNext, h.read, h.total, h.fileSize, and_iff_right rfl]

/-- A failure in the loop is a read that delivered less than it should have. -/
theorem fails_iff (disk : Disk) (chunkSize : ChunkSize) :
    (∃ s, Reaches next (start (.new disk chunkSize)) s ∧ s.exit = none ∧ FailsNext s.reader) ↔
      ¬ NoFailure disk chunkSize := by
  have hpos := chunkSize.pos
  constructor
  · rintro ⟨s, hs, hexit, hfails⟩ hno
    obtain ⟨k, hk | hk⟩ := (reads_of_reaches hs).resolve_left (not_not.mpr hexit)
    · obtain ⟨hnil, hlt⟩ := hk.failsNext_iff.mp hfails
      rcases hno k hk.full hlt with hlen | hlen
      · rw [hnil, List.length_nil] at hlen
        omega
      · rw [hnil, List.length_nil] at hlen
        omega
    · have hlt := hk.failsNext_iff.mp hfails
      have hshort := hk.short
      rcases hno k hk.full (by omega) with hlen | hlen
      · omega
      · omega
  · intro hno
    simp only [NoFailure, not_forall, not_or, not_le] at hno
    obtain ⟨k, hfull, hlt, hne, hmissing⟩ := hno
    obtain ⟨s, hs, hk⟩ := reaches_full hfull
    by_cases hnil : disk.chunk chunkSize.val k = []
    · exact ⟨s, hs, hk.exit, hk.failsNext_iff.mpr ⟨hnil, hlt⟩⟩
    · obtain ⟨t, ht, hread⟩ := hk.next hnil
      have hshort := hread.resolve_left fun h => hne (h.full k (Nat.lt_succ_self k))
      exact ⟨t, hs.tail ht, hshort.exit, hshort.failsNext_iff.mpr hmissing⟩

/-- The reader tells a failed read from the end of the file, and the clients log it, on
exactly those disks where no read fails: a read that delivers nothing sets the reader's
flag before `eof` is asked. -/
theorem reportsFailure_always_iff (disk : Disk) (chunkSize : ChunkSize) :
    (∀ s, Reaches next (start (.new disk chunkSize)) s → s.exit = none →
      ReportsFailure s.reader) ↔ NoFailure disk chunkSize := by
  rw [← not_iff_not, ← fails_iff]
  push Not
  refine exists_congr fun s => and_congr_right fun hs => and_congr_right fun hexit => ?_
  obtain ⟨k, hk | hk⟩ := (reads_of_reaches hs).resolve_left (not_not.mpr hexit)
  · rw [reportsFailure_iff hk.eofFlag hk.isOpen, not_not]
  · rw [reportsFailure_iff hk.eofFlag hk.isOpen, not_not]

/-- A file of one byte whose only read fails. -/
theorem not_reportsFailure :
    ¬ ∀ s, Reaches next (start (.new
      ⟨1, by decide, fun _ _ _ => [], fun _ => true, fun _ _ n => Nat.zero_le n⟩
      ⟨1, by decide, by decide⟩)) s → s.exit = none → ReportsFailure s.reader := by
  intro h
  exact absurd ⟨rfl, Nat.one_pos⟩ ((reportsFailure_iff rfl rfl).mp (h _ .refl rfl))

end Common.ReadLoop

end ReversalBench
