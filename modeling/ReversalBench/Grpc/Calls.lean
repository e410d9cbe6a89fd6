import ReversalBench.Grpc.Invariant

/-! The calls that the writer thread of the gRPC client makes on its stream, in every run and
whatever the peer and the stream do. The requests are those of the chunks of the file, in
order and each once. Nothing is written after a failed `Write` or after `WritesDone`, and
`WritesDone` is called once, after the last chunk, or not at all. -/

namespace ReversalBench.Grpc

open Blocks (blocks)
open Machine (run log log_induction)

variable {P : Params} {f : File} {chunkSize : ChunkSize} {s t : ClientState}

/-- `stream->Write` with its result, and `stream->WritesDone`. -/
inductive StreamCall where
  | write (request : ChunkRequest) (ok : Bool)
  | writesDone
  deriving DecidableEq

/-- The call on the stream that a step makes. -/
def streamCall (s : ClientState) : Action → Option StreamCall
  | .writer (.write ok) =>
    match s.writer with
    | .write request _ => some (.write request ok)
    | _ => none
  | .writer (.writesDone _) => some .writesDone
  | _ => none

/-- The requests for the chunks of a file, whose ids count from 1. -/
def requests (f : File) (chunkSize : ChunkSize) : List ChunkRequest :=
  (blocks chunkSize.val f.bytes).mapIdx fun i chunk => ⟨chunk, Int64.ofNat (i + 1)⟩

/-- The first `n` requests are written. -/
def writes (f : File) (chunkSize : ChunkSize) (n : ℕ) : List StreamCall :=
  ((requests f chunkSize).take n).map fun request => .write request true

/-- All requests are written, and the stream is half-closed. -/
def wholeFile (f : File) (chunkSize : ChunkSize) : List StreamCall :=
  writes f chunkSize (requests f chunkSize).length ++ [.writesDone]

/-- The calls that the protocol of the stream allows for a file. -/
inductive Conforms (f : File) (chunkSize : ChunkSize) : List StreamCall → Prop where
  | opened (n : ℕ) : Conforms f chunkSize (writes f chunkSize n)
  | broken (n : ℕ) {request : ChunkRequest} (next : (requests f chunkSize)[n]? = some request) :
    Conforms f chunkSize (writes f chunkSize n ++ [.write request false])
  | closed : Conforms f chunkSize (wholeFile f chunkSize)

@[simp] theorem length_requests (f : File) (chunkSize : ChunkSize) :
    (requests f chunkSize).length = (blocks chunkSize.val f.bytes).length := by simp [requests]

theorem writes_succ {n : ℕ} {request : ChunkRequest}
    (h : (requests f chunkSize)[n]? = some request) :
    writes f chunkSize (n + 1) = writes f chunkSize n ++ [.write request true] := by
  rw [writes, List.take_add_one, h, List.map_append]
  rfl

/-- The entry of a chunk goes with its request. -/
theorem IsEntry.request {n : ℕ} {entry : SentChunkInfo} {request : ChunkRequest}
    (h : IsEntry f chunkSize (n + 1) entry)
    (hdata : request.dataChunk = entry.originalDataForVerification)
    (hid : request.clientAssignedChunkId = Int64.ofNat (n + 1)) :
    (requests f chunkSize)[n]? = some request := by
  have hblock := h.data
  rw [Nat.add_sub_cancel] at hblock
  rw [requests, List.getElem?_mapIdx, hblock, Option.map_some, ← hdata, ← hid]

/-- The calls that were made, at the program counter of the writer. -/
def AtCall (f : File) (chunkSize : ChunkSize) (calls : List StreamCall) (s : ClientState) : Prop :=
  match s.writer with
  | .notStarted | .wait | .nextChunk | .insert _ =>
    calls = writes f chunkSize s.clientChunkIdCounter
  | .write request _ =>
    calls = writes f chunkSize (s.clientChunkIdCounter - 1) ∧
      (requests f chunkSize)[s.clientChunkIdCounter - 1]? = some request
  | .finish =>
    Conforms f chunkSize calls ∧ (s.writerStreamBroken = false →
      calls = writes f chunkSize (requests f chunkSize).length)
  | .writesDone => calls = writes f chunkSize (requests f chunkSize).length
  | .notifyAll | .done =>
    Conforms f chunkSize calls ∧ (s.writerStreamBroken = false → calls = wholeFile f chunkSize)

variable {calls : List StreamCall}

theorem atCall_init (f : File) (chunkSize : ChunkSize) :
    AtCall f chunkSize [] (.init (Disk.ofFile f) chunkSize) := rfl

/-- Whatever the writer is at, the calls conform. -/
theorem AtCall.conforms (h : AtCall f chunkSize calls s) : Conforms f chunkSize calls := by
  unfold AtCall at h
  split at h
  · exact h ▸ .opened _
  · exact h ▸ .opened _
  · exact h ▸ .opened _
  · exact h ▸ .opened _
  · exact h.1 ▸ .opened _
  · exact h.1
  · exact h ▸ .opened _
  · exact h.1
  · exact h.1

/-- The next chunk is prepared, or there is none. -/
theorem AtCall.of_nextChunk {now : ℤ} (h : AtCall f chunkSize calls s)
    (hw : WriterInv f chunkSize s) (hs : writerStep P s (.nextChunk now) = some t) :
    AtCall f chunkSize calls t := by
  obtain ⟨hwriter, rfl⟩ := nextChunk_iff.mp hs
  obtain ⟨hreader, hsent, hbroken⟩ := by simpa only [AtWriter, hwriter] using hw.pc
  simp only [AtCall, hwriter] at h
  rcases @prepare_ofFile P _ _ _ hreader hw.counter_le now with
    ⟨hend, hp⟩ | ⟨hlt, -, request, entry, hp, hentry, hdata, hid⟩
  · rw [hp]
    refine ⟨h ▸ .opened _, fun _ => ?_⟩
    rw [h, hend, length_requests]
  · rw [hp]
    exact ⟨h, hentry.request hdata hid⟩

theorem AtCall.of_writerStep {a : WriterAction} (h : AtCall f chunkSize calls s)
    (hw : WriterInv f chunkSize s) (hs : writerStep P s a = some t) :
    AtCall f chunkSize (calls ++ (streamCall s (.writer a)).toList) t := by
  cases a with
  | wake =>
    obtain ⟨hwriter, -, rfl⟩ := wake_iff.mp hs
    simp only [AtCall, hwriter] at h
    simpa [streamCall, AtCall] using h
  | nextChunk now => simpa [streamCall] using h.of_nextChunk hw hs
  | throws what =>
    obtain ⟨-, rfl⟩ := writer_throws_iff.mp hs
    simp only [streamCall, Option.toList_none, List.append_nil]
    exact ⟨h.conforms, fun hb => Bool.noConfusion hb⟩
  | write ok =>
    obtain ⟨request, entry, hwriter, rfl⟩ := write_iff.mp hs
    have hpc := hw.pc
    simp only [AtWriter, hwriter] at hpc
    simp only [AtCall, hwriter] at h
    obtain ⟨rfl, hnext⟩ := h
    obtain ⟨-, hsent, -⟩ := hpc
    simp only [streamCall, hwriter, Option.toList_some]
    cases ok with
    | true =>
      show _ = writes f chunkSize s.clientChunkIdCounter
      rw [← writes_succ hnext]
      exact congrArg _ (by omega)
    | false => exact ⟨.broken _ hnext, fun hb => Bool.noConfusion hb⟩
  | insert =>
    obtain ⟨entry, hwriter, rfl⟩ := insert_iff.mp hs
    simp only [AtCall, hwriter] at h
    simpa [streamCall, AtCall] using h
  | finish =>
    obtain ⟨hwriter, rfl⟩ := writer_finish_iff.mp hs
    simp only [AtCall, hwriter] at h
    cases hb : s.writerStreamBroken with
    | true => simpa [streamCall, AtCall, hb] using h.1
    | false => simpa [streamCall, AtCall, hb] using h.2 hb
  | writesDone ok =>
    obtain ⟨hwriter, rfl⟩ := writesDone_iff.mp hs
    simp only [AtCall, hwriter] at h
    rw [h]
    exact ⟨.closed, fun _ => rfl⟩
  | notifyAll =>
    obtain ⟨hwriter, rfl⟩ := notifyAll_iff.mp hs
    simp only [AtCall, hwriter] at h
    simpa [streamCall, AtCall] using h

/-- The other thread makes no such call; it starts the writer. -/
theorem AtCall.of_mainStep {a : MainAction} (h : AtCall f chunkSize calls s)
    (hw : WriterInv f chunkSize s) (hs : mainStep P s a = some t) :
    AtCall f chunkSize calls t := by
  have hframe := mainStep_frame hs
  rcases hframe.writer with hwriter | ⟨hm, hwriter⟩
  · simp only [AtCall, hwriter, hframe.counter, hframe.broken]
    exact h
  · simp only [AtCall, hw.start hm] at h
    simp only [AtCall, hwriter, hframe.counter]
    exact h

theorem AtCall.of_run {as : List Action}
    (h : run (step P) as (.init (Disk.ofFile f) chunkSize) = some t) :
    WriterInv f chunkSize t ∧
      AtCall f chunkSize (log (step P) streamCall as (.init (Disk.ofFile f) chunkSize)) t := by
  refine log_induction (P := fun calls t => WriterInv f chunkSize t ∧ AtCall f chunkSize calls t)
    ⟨writerInv_init f chunkSize, atCall_init f chunkSize⟩ ?_ h
  rintro calls t a u ⟨hw, hcall⟩ hu
  refine ⟨hw.of_step hu, ?_⟩
  cases a with
  | writer a => exact hcall.of_writerStep hw hu
  | main a =>
    have hnone : streamCall t (.main a) = none := rfl
    rw [hnone, Option.toList_none, List.append_nil]
    exact hcall.of_mainStep hw hu

/-- In every run the calls on the stream conform to its protocol, and a writer that has ended
without a failure has written the whole file and half-closed the stream. -/
theorem calls_conform {as : List Action}
    (h : run (step P) as (.init (Disk.ofFile f) chunkSize) = some t) :
    Conforms f chunkSize (log (step P) streamCall as (.init (Disk.ofFile f) chunkSize)) ∧
    (t.writer = .done → t.writerStreamBroken = false →
      log (step P) streamCall as (.init (Disk.ofFile f) chunkSize) = wholeFile f chunkSize) := by
  obtain ⟨-, hcall⟩ := AtCall.of_run h
  refine ⟨hcall.conforms, fun hdone hbroken => ?_⟩
  simp only [AtCall, hdone] at hcall
  exact hcall.2 hbroken

/-- The second of two requests is not written. -/
def brokenWriteRun : List Action :=
  [.main (.openStream true 0), .writer .wake, .writer (.nextChunk 0), .writer (.write true),
    .writer .insert, .main (.read (some ⟨[9], 7⟩) 0), .main .lookup, .writer .wake,
    .writer (.nextChunk 0), .writer (.write false), .writer .finish, .writer .notifyAll]

theorem calls_conform_broken :
    Conforms ⟨[1, 2, 3], by decide⟩ ⟨2, by decide, by decide⟩
      [.write ⟨[1, 2], 1⟩ true, .write ⟨[3], 2⟩ false] := by
  have hrun : (run (step (.shipped fun _ => 0)) brokenWriteRun
      (.init (Disk.ofFile ⟨[1, 2, 3], by decide⟩) ⟨2, by decide, by decide⟩)).isSome := by
    decide +kernel
  obtain ⟨t, ht⟩ := Option.isSome_iff_exists.mp hrun
  have hcalls : log (step (.shipped fun _ => 0)) streamCall brokenWriteRun
      (.init (Disk.ofFile ⟨[1, 2, 3], by decide⟩) ⟨2, by decide, by decide⟩) =
      [.write ⟨[1, 2], 1⟩ true, .write ⟨[3], 2⟩ false] := by decide +kernel
  exact hcalls ▸ (calls_conform ht).1

end ReversalBench.Grpc
