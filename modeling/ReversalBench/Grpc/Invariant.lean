import ReversalBench.Grpc.Steps

/-! The invariant of the gRPC client on a file that stays unchanged, whatever the peer
and the stream do. The ids in the map are ids of chunks that were written, each with
its chunk; an id leaves the map when it is matched and never comes back. -/

namespace ReversalBench.Grpc

open Blocks (blocks)
open Common (ChunkReader)

variable {P : Params} {f : File} {chunkSize : ChunkSize} {s t : ClientState}

/-- The entry of the chunk with an id; ids count from 1. -/
structure IsEntry (f : File) (chunkSize : ChunkSize) (id : ℕ) (entry : SentChunkInfo) : Prop where
  pos : 0 < id
  id_eq : entry.clientAssignedId = id
  data : (blocks chunkSize.val f.bytes)[id - 1]? = some entry.originalDataForVerification
  size : entry.originalPayloadSize = entry.originalDataForVerification.length

theorem IsEntry.le {id : ℕ} {entry : SentChunkInfo} (h : IsEntry f chunkSize id entry) :
    id ≤ (blocks chunkSize.val f.bytes).length := by
  obtain ⟨hlt, -⟩ := List.getElem?_eq_some_iff.mp h.data
  have := h.pos
  omega

/-- The number of chunks that were written and entered in the map. -/
def ClientState.inserted (s : ClientState) : ℕ :=
  match s.writer with
  | .insert _ => s.totalChunksActuallySentByWriter - 1
  | _ => s.totalChunksActuallySentByWriter

/-- What holds of the writer at its program counter. -/
def AtWriter (f : File) (chunkSize : ChunkSize) (s : ClientState) : Prop :=
  match s.writer with
  | .notStarted | .wait | .nextChunk =>
    s.reader.At f chunkSize s.clientChunkIdCounter ∧
      s.totalChunksActuallySentByWriter = s.clientChunkIdCounter ∧ s.writerStreamBroken = false
  | .write request logEntry =>
    s.reader.At f chunkSize s.clientChunkIdCounter ∧
      s.totalChunksActuallySentByWriter + 1 = s.clientChunkIdCounter ∧
      s.writerStreamBroken = false ∧ IsEntry f chunkSize s.clientChunkIdCounter logEntry ∧
      request.dataChunk = logEntry.originalDataForVerification ∧
      request.clientAssignedChunkId = Int64.ofNat s.clientChunkIdCounter
  | .insert logEntry =>
    s.reader.At f chunkSize s.clientChunkIdCounter ∧
      s.totalChunksActuallySentByWriter = s.clientChunkIdCounter ∧
      s.writerStreamBroken = false ∧ IsEntry f chunkSize s.clientChunkIdCounter logEntry
  | .finish | .writesDone | .notifyAll | .done =>
    s.totalChunksActuallySentByWriter ≤ s.clientChunkIdCounter ∧
      (s.writerStreamBroken = false →
        s.totalChunksActuallySentByWriter = (blocks chunkSize.val f.bytes).length)

/-- The writer's part of the invariant. -/
structure WriterInv (f : File) (chunkSize : ChunkSize) (s : ClientState) : Prop where
  pc : AtWriter f chunkSize s
  counter_le : s.clientChunkIdCounter ≤ (blocks chunkSize.val f.bytes).length
  map : ∀ {id entry}, s.inflightRequestsMap.lookup id = some entry →
    IsEntry f chunkSize id entry ∧ id ≤ s.inserted
  start : s.main = .start → s.writer = .notStarted

theorem writerInv_init (f : File) (chunkSize : ChunkSize) :
    WriterInv f chunkSize (.init (Disk.ofFile f) chunkSize) where
  pc := ⟨ChunkReader.at_new f chunkSize, rfl, rfl⟩
  counter_le := Nat.zero_le _
  map h := by simp [ClientState.init] at h
  start _ := rfl

/-! ### Steps of the writer thread -/

/-- Reading the next chunk of the file does not fail. -/
theorem prepare_ofFile (hreader : s.reader.At f chunkSize s.clientChunkIdCounter)
    (hle : s.clientChunkIdCounter ≤ (blocks chunkSize.val f.bytes).length) (now : ℤ) :
    (s.clientChunkIdCounter = (blocks chunkSize.val f.bytes).length ∧
      s.prepare P now = { s with reader := s.reader.nextChunk.2, writer := .finish }) ∨
    (s.clientChunkIdCounter < (blocks chunkSize.val f.bytes).length ∧
      s.reader.nextChunk.2.At f chunkSize (s.clientChunkIdCounter + 1) ∧
      ∃ request logEntry,
        s.prepare P now = { s with
          reader := s.reader.nextChunk.2
          clientChunkIdCounter := s.clientChunkIdCounter + 1
          writer := .write request logEntry } ∧
        IsEntry f chunkSize (s.clientChunkIdCounter + 1) logEntry ∧
        request.dataChunk = logEntry.originalDataForVerification ∧
        request.clientAssignedChunkId = Int64.ofNat (s.clientChunkIdCounter + 1)) := by
  rcases Nat.eq_or_lt_of_le hle with hend | hlt
  · obtain ⟨hnil, heof⟩ := hreader.nextChunk_end hend.ge
    rcases prepare_cases P s now with ⟨-, -, hp⟩ | ⟨-, hfalse, -⟩ | ⟨hne, -⟩
    · exact .inl ⟨hend, hp⟩
    · rw [heof] at hfalse
      cases hfalse
    · exact absurd hnil hne
  · obtain ⟨hchunk, hnext⟩ := hreader.nextChunk hlt
    have hne : s.reader.nextChunk.1 ≠ [] :=
      hchunk ▸ Blocks.ne_nil_of_mem_blocks chunkSize.pos (List.getElem_mem hlt)
    rcases prepare_cases P s now with ⟨hnil, -⟩ | ⟨hnil, -⟩ | ⟨-, request, entry, hp, hreq⟩
    · exact absurd hnil hne
    · exact absurd hnil hne
    · obtain ⟨hdata, hid, heid, hsize, hedata, -⟩ := hreq
      refine .inr ⟨hlt, hnext, request, entry, hp, ⟨Nat.succ_pos _, heid, ?_, ?_⟩, ?_, hid⟩
      · rw [hedata, hchunk]
        exact List.getElem?_eq_getElem hlt
      · rw [hsize, hedata]
      · rw [hdata, hedata]

theorem WriterInv.of_writerStep {a : WriterAction} (h : WriterInv f chunkSize s)
    (hs : writerStep P s a = some t) : WriterInv f chunkSize t := by
  obtain ⟨hpc, hle, hmap, hstart⟩ := h
  have hframe := writerStep_frame hs
  have hstart : t.main = .start → t.writer = .notStarted :=
    fun hm => absurd (hstart (hframe.main.symm.trans hm)) hframe.started
  cases a with
  | wake =>
    obtain ⟨hw, -, rfl⟩ := wake_iff.mp hs
    simp only [AtWriter, ClientState.inserted, hw] at hpc hmap
    exact ⟨hpc, hle, hmap, hstart⟩
  | nextChunk now =>
    obtain ⟨hw, rfl⟩ := nextChunk_iff.mp hs
    simp only [AtWriter, ClientState.inserted, hw] at hpc hmap
    obtain ⟨hreader, hsent, hbroken⟩ := hpc
    rcases @prepare_ofFile P _ _ _ hreader hle now with ⟨hend, hp⟩ | ⟨hlt, hnext, r, e, hp, hentry⟩
    · rw [hp]
      exact ⟨⟨hsent.le, fun _ => hsent.trans hend⟩, hle, hmap, hp ▸ hstart⟩
    · rw [hp]
      exact ⟨⟨hnext, congrArg Nat.succ hsent, hbroken, hentry⟩, hlt, hmap, hp ▸ hstart⟩
  | throws what =>
    obtain ⟨hw, rfl⟩ := writer_throws_iff.mp hs
    have hsent : s.totalChunksActuallySentByWriter ≤ s.clientChunkIdCounter := by
      cases hwriter : s.writer <;> simp only [AtWriter, hwriter] at hpc <;> omega
    refine ⟨⟨hsent, fun hb => Bool.noConfusion hb⟩, hle, fun hl => ?_, hstart⟩
    obtain ⟨hentry, hid⟩ := hmap hl
    refine ⟨hentry, hid.trans ?_⟩
    cases hwriter : s.writer <;>
      simp [ClientState.inserted, ClientState.writerThrows, ClientState.logError, hwriter]
  | write ok =>
    obtain ⟨request, entry, hw, rfl⟩ := write_iff.mp hs
    simp only [AtWriter, ClientState.inserted, hw] at hpc hmap
    obtain ⟨hreader, hsent, hbroken, hentry, -⟩ := hpc
    cases ok with
    | true => exact ⟨⟨hreader, hsent, hbroken, hentry⟩, hle, hmap, hstart⟩
    | false =>
      refine ⟨⟨?_, fun hb => Bool.noConfusion hb⟩, hle, hmap, hstart⟩
      exact (Nat.le_succ _).trans hsent.le
  | insert =>
    obtain ⟨entry, hw, rfl⟩ := insert_iff.mp hs
    simp only [AtWriter, ClientState.inserted, hw] at hpc hmap
    obtain ⟨hreader, hsent, hbroken, hentry⟩ := hpc
    refine ⟨⟨hreader, hsent, hbroken⟩, hle, fun {id e} hl => ?_, hstart⟩
    by_cases hid : id = entry.clientAssignedId
    · subst hid
      rw [AList.lookup_insert] at hl
      cases hl
      rw [hentry.id_eq]
      exact ⟨hentry, hsent.ge⟩
    · rw [AList.lookup_insert_ne hid] at hl
      obtain ⟨he, hbound⟩ := hmap hl
      exact ⟨he, hbound.trans (Nat.sub_le _ _)⟩
  | finish =>
    obtain ⟨hw, rfl⟩ := writer_finish_iff.mp hs
    simp only [AtWriter, ClientState.inserted, hw] at hpc hmap
    refine ⟨?_, hle, fun hl => ?_, hstart⟩
    · cases hb : s.writerStreamBroken <;> simpa [AtWriter, hb] using hpc
    · cases hb : s.writerStreamBroken <;> simpa [ClientState.inserted, hb] using hmap hl
  | writesDone ok =>
    obtain ⟨hw, rfl⟩ := writesDone_iff.mp hs
    simp only [AtWriter, ClientState.inserted, hw] at hpc hmap
    exact ⟨hpc, hle, hmap, hstart⟩
  | notifyAll =>
    obtain ⟨hw, rfl⟩ := notifyAll_iff.mp hs
    simp only [AtWriter, ClientState.inserted, hw] at hpc hmap
    exact ⟨hpc, hle, hmap, hstart⟩

/-- The writer only adds an entry to the map, under an id larger than those before. -/
theorem WriterInv.map_writerStep {a : WriterAction} (h : WriterInv f chunkSize s)
    (hs : writerStep P s a = some t) :
    s.inserted ≤ t.inserted ∧ ∀ id ≤ s.inserted,
      t.inflightRequestsMap.lookup id = s.inflightRequestsMap.lookup id := by
  cases a with
  | wake =>
    obtain ⟨hw, -, rfl⟩ := wake_iff.mp hs
    simp [ClientState.inserted, hw]
  | nextChunk now =>
    obtain ⟨hw, rfl⟩ := nextChunk_iff.mp hs
    rcases prepare_cases P s now with ⟨-, -, hp⟩ | ⟨-, -, hp⟩ | ⟨-, request, entry, hp, -⟩ <;>
      simp [hp, ClientState.inserted, ClientState.logError, hw]
  | throws what =>
    obtain ⟨-, rfl⟩ := writer_throws_iff.mp hs
    refine ⟨?_, fun id _ => rfl⟩
    cases hwriter : s.writer <;>
      simp [ClientState.inserted, ClientState.writerThrows, ClientState.logError, hwriter]
  | write ok =>
    obtain ⟨request, entry, hw, rfl⟩ := write_iff.mp hs
    cases ok <;> simp [ClientState.inserted, hw]
  | insert =>
    obtain ⟨entry, hw, rfl⟩ := insert_iff.mp hs
    obtain ⟨-, hsent, -, hentry⟩ := by simpa only [AtWriter, hw] using h.pc
    simp only [ClientState.inserted, hw]
    refine ⟨Nat.sub_le _ _, fun id hid => AList.lookup_insert_ne ?_⟩
    have hpos := hentry.pos
    have heq := hentry.id_eq
    omega
  | finish =>
    obtain ⟨hw, rfl⟩ := writer_finish_iff.mp hs
    cases hb : s.writerStreamBroken <;> simp [ClientState.inserted, hw]
  | writesDone ok =>
    obtain ⟨hw, rfl⟩ := writesDone_iff.mp hs
    simp [ClientState.inserted, hw]
  | notifyAll =>
    obtain ⟨hw, rfl⟩ := notifyAll_iff.mp hs
    simp [ClientState.inserted, hw]

/-! ### Steps of the other thread -/

theorem WriterInv.inserted_mainStep {a : MainAction} (h : WriterInv f chunkSize s)
    (hs : mainStep P s a = some t) : t.inserted = s.inserted := by
  have hframe := mainStep_frame hs
  rcases hframe.writer with hw | ⟨hm, hw⟩
  · simp only [ClientState.inserted, hw, hframe.sent]
  · simp only [ClientState.inserted, hw, h.start hm, hframe.sent]

theorem WriterInv.of_mainStep {a : MainAction} (h : WriterInv f chunkSize s)
    (hs : mainStep P s a = some t) : WriterInv f chunkSize t := by
  have hinserted := h.inserted_mainStep hs
  obtain ⟨hpc, hle, hmap, hstart⟩ := h
  obtain ⟨hreader, hcounter, hsent, hbroken, -, hlookup, hwriter, hmain⟩ := mainStep_frame hs
  refine ⟨?_, hcounter ▸ hle, fun hl => ?_, fun hm => absurd hm hmain⟩
  · rcases hwriter with hw | ⟨hm, hw⟩
    · simp only [AtWriter, hw, hreader, hcounter, hsent, hbroken]
      exact hpc
    · simp only [AtWriter, hstart hm] at hpc
      simp only [AtWriter, hw, hreader, hcounter, hsent, hbroken]
      exact hpc
  · rw [hinserted]
    exact hmap (hlookup hl)

theorem WriterInv.of_step {a : Action} (h : WriterInv f chunkSize s) (hs : step P s a = some t) :
    WriterInv f chunkSize t := by
  cases a with
  | writer a => exact h.of_writerStep hs
  | main a => exact h.of_mainStep hs

theorem WriterInv.of_run {as : List Action}
    (h : Machine.run (step P) as (.init (Disk.ofFile f) chunkSize) = some t) :
    WriterInv f chunkSize t :=
  Machine.invariant_run (fun _ _ _ => WriterInv.of_step) (writerInv_init f chunkSize) h

end ReversalBench.Grpc
