import ReversalBench.Grpc.Client

/-! What each step of the gRPC client requires and what it does. Facts about runs are
derived from these lemmas and not from the step functions. -/

namespace ReversalBench.Grpc

variable {P : Params} {s t : ClientState}

/-! ### The writer thread -/

theorem wake_iff : writerStep P s .wake = some t ↔
    s.writer = .wait ∧ s.HasRoom P ∧ { s with writer := .nextChunk } = t := by
  cases hw : s.writer <;> simp [writerStep, hw]

theorem nextChunk_iff {now : ℤ} : writerStep P s (.nextChunk now) = some t ↔
    s.writer = .nextChunk ∧ s.prepare P now = t := by
  cases hw : s.writer <;> simp [writerStep, hw]

theorem writer_throws_iff {what : String} : writerStep P s (.throws what) = some t ↔
    s.writer.inLoop = true ∧ s.writerThrows what = t := by
  simp [writerStep]

theorem write_iff {ok : Bool} : writerStep P s (.write ok) = some t ↔
    ∃ request logEntry, s.writer = .write request logEntry ∧
      (if ok then
        { s with
          totalChunksActuallySentByWriter := s.totalChunksActuallySentByWriter + 1
          writer := .insert logEntry }
      else { s with writerStreamBroken := true, writer := .finish }) = t := by
  cases hw : s.writer <;> cases ok <;> simp [writerStep, hw]

theorem insert_iff : writerStep P s .insert = some t ↔
    ∃ logEntry, s.writer = .insert logEntry ∧
      { s with
        inflightRequestsMap := s.inflightRequestsMap.insert logEntry.clientAssignedId logEntry
        writer := .wait } = t := by
  cases hw : s.writer <;> simp [writerStep, hw]

theorem writer_finish_iff : writerStep P s .finish = some t ↔
    s.writer = .finish ∧
      { s with
        writerThreadFinishedSending := true
        writer := if s.writerStreamBroken then .notifyAll else .writesDone } = t := by
  cases hw : s.writer <;> simp [writerStep, hw]

theorem writesDone_iff {ok : Bool} : writerStep P s (.writesDone ok) = some t ↔
    s.writer = .writesDone ∧ { s with writer := .notifyAll } = t := by
  cases hw : s.writer <;> simp [writerStep, hw]

theorem notifyAll_iff : writerStep P s .notifyAll = some t ↔
    s.writer = .notifyAll ∧ { s with writer := .done } = t := by
  cases hw : s.writer <;> simp [writerStep, hw]

/-- The next chunk is a block of the file, the end of the file, or an error. -/
theorem prepare_cases (P : Params) (s : ClientState) (now : ℤ) :
    (s.reader.nextChunk.1 = [] ∧ s.reader.nextChunk.2.eof = true ∧
      s.prepare P now = { s with reader := s.reader.nextChunk.2, writer := .finish }) ∨
    (s.reader.nextChunk.1 = [] ∧ s.reader.nextChunk.2.eof = false ∧
      s.prepare P now = { s.logError
          "gRPC Client (Writer): Error reading chunk or empty chunk before EOF." with
        reader := s.reader.nextChunk.2
        writerStreamBroken := true
        writer := .done }) ∨
    (s.reader.nextChunk.1 ≠ [] ∧ ∃ request logEntry,
      s.prepare P now = { s with
        reader := s.reader.nextChunk.2
        clientChunkIdCounter := s.clientChunkIdCounter + 1
        writer := .write request logEntry } ∧
      request.dataChunk = s.reader.nextChunk.1 ∧
      request.clientAssignedChunkId = Int64.ofNat (s.clientChunkIdCounter + 1) ∧
      logEntry.clientAssignedId = s.clientChunkIdCounter + 1 ∧
      logEntry.originalPayloadSize = s.reader.nextChunk.1.length ∧
      logEntry.originalDataForVerification = s.reader.nextChunk.1 ∧
      logEntry.onWireRequestSizeBytes = P.byteSizeLong request) := by
  by_cases hnil : s.reader.nextChunk.1 = []
  · cases heof : s.reader.nextChunk.2.eof with
    | true => exact .inl ⟨hnil, rfl, by simp [ClientState.prepare, hnil, heof]⟩
    | false =>
      exact .inr (.inl ⟨hnil, rfl, by simp [ClientState.prepare, hnil, heof, ClientState.logError]⟩)
  · let request : ChunkRequest :=
      ⟨s.reader.nextChunk.1, Int64.ofNat (s.clientChunkIdCounter + 1)⟩
    refine .inr (.inr ⟨hnil, request, ⟨s.clientChunkIdCounter + 1, s.reader.nextChunk.1.length,
      P.byteSizeLong request, s.reader.nextChunk.1, now⟩, ?_, rfl, rfl, rfl, rfl, rfl, rfl⟩)
    simp [ClientState.prepare, hnil, request]

/-! ### The thread that called `ProcessFile` -/

theorem openStream_iff {ok : Bool} {now : ℤ} : mainStep P s (.openStream ok now) = some t ↔
    s.main = .start ∧
      (if ok then
        { s with overallProcessingStartTime := now, writer := .wait, main := .read }
      else
        { s.logError "gRPC Client: Failed to create stream. Stub returned nullptr." with
          main := .returned false }) = t := by
  cases hm : s.main <;> cases ok <;> simp [mainStep, hm]

theorem read_iff {response : Option ChunkResponse} {now : ℤ} :
    mainStep P s (.read response now) = some t ↔
      s.main = .read ∧
        { s with main := response.elim .join fun response => .lookup response now } = t := by
  cases hm : s.main <;> cases response <;> simp [mainStep, hm]

theorem main_throws_iff {what : String} : mainStep P s (.throws what) = some t ↔
    s.main.inLoop = true ∧
      { s.logError ("Exception in Read loop: " ++ what) with main := .join } = t := by
  simp [mainStep]

theorem lookup_iff : mainStep P s .lookup = some t ↔
    ∃ response now, s.main = .lookup response now ∧ s.lookup response now = t := by
  cases hm : s.main <;> simp [mainStep, hm]

theorem account_iff : mainStep P s .account = some t ↔
    ∃ entry response now, s.main = .account entry response now ∧
      s.account entry response now = t := by
  cases hm : s.main <;> simp [mainStep, hm]

theorem verify_iff : mainStep P s .verify = some t ↔
    ∃ entry response, s.main = .verify entry response ∧ s.verify entry response = t := by
  cases hm : s.main <;> simp [mainStep, hm]

theorem join_iff : mainStep P s .join = some t ↔
    s.main = .join ∧ s.writer = .done ∧ { s with main := .leftover } = t := by
  cases hm : s.main <;> cases hw : s.writer <;> simp [mainStep, hm, hw]

theorem leftover_iff : mainStep P s .leftover = some t ↔
    s.main = .leftover ∧ s.leftover = t := by
  cases hm : s.main <;> simp [mainStep, hm]

theorem main_finish_iff {status : Status} {now : ℤ} :
    mainStep P s (.finish status now) = some t ↔ s.main = .finish ∧ s.finish status now = t := by
  cases hm : s.main <;> simp [mainStep, hm]

theorem check_iff : mainStep P s .check = some t ↔
    ∃ status, s.main = .check status ∧ s.check P status = t := by
  cases hm : s.main <;> simp [mainStep, hm]

/-! ### What the steps of a thread leave alone -/

/-- The writer thread does not touch what belongs to the reader, and only runs between its
start and its end. -/
structure WriterFrame (s t : ClientState) : Prop where
  main : t.main = s.main
  received : t.receivedResponsesCount = s.receivedResponsesCount
  total : t.totalBytesVerifiedPayloadByReader = s.totalBytesVerifiedPayloadByReader
  started : s.writer ≠ .notStarted
  not_done : s.writer ≠ .done
  running : t.writer ≠ .notStarted

theorem writerStep_frame {a : WriterAction} (hs : writerStep P s a = some t) :
    WriterFrame s t := by
  cases a with
  | wake => obtain ⟨hw, -, rfl⟩ := wake_iff.mp hs; constructor <;> simp [hw]
  | nextChunk now =>
    obtain ⟨hw, rfl⟩ := nextChunk_iff.mp hs
    rcases prepare_cases P s now with ⟨-, -, hp⟩ | ⟨-, -, hp⟩ | ⟨-, request, entry, hp, -⟩ <;>
      constructor <;> simp [hp, hw, ClientState.logError]
  | throws what =>
    obtain ⟨hw, rfl⟩ := writer_throws_iff.mp hs
    refine ⟨rfl, rfl, rfl, fun h => ?_, fun h => ?_, WriterPc.noConfusion⟩ <;> rw [h] at hw <;>
      cases hw
  | write ok =>
    obtain ⟨_, _, hw, rfl⟩ := write_iff.mp hs
    cases ok <;> constructor <;> simp [hw]
  | insert => obtain ⟨_, hw, rfl⟩ := insert_iff.mp hs; constructor <;> simp [hw]
  | finish =>
    obtain ⟨hw, rfl⟩ := writer_finish_iff.mp hs
    cases hb : s.writerStreamBroken <;> constructor <;> simp [hw]
  | writesDone ok => obtain ⟨hw, rfl⟩ := writesDone_iff.mp hs; constructor <;> simp [hw]
  | notifyAll => obtain ⟨hw, rfl⟩ := notifyAll_iff.mp hs; constructor <;> simp [hw]

/-- The two ways a lookup can go. -/
theorem lookup_cases (s : ClientState) (response : ChunkResponse) (now : ℤ) :
    (∃ entry, s.inflightRequestsMap.lookup (toSizeT response.originalClientChunkId) = some entry ∧
      s.lookup response now = { s with
        inflightRequestsMap := s.inflightRequestsMap.erase
          (toSizeT response.originalClientChunkId)
        main := .account entry response now }) ∨
    (s.inflightRequestsMap.lookup (toSizeT response.originalClientChunkId) = none ∧
      ∃ message, s.lookup response now = { s.logError message with main := .read }) := by
  cases hl : s.inflightRequestsMap.lookup (toSizeT response.originalClientChunkId) with
  | none => exact .inr ⟨rfl, _, by simp only [ClientState.lookup, hl]; rfl⟩
  | some entry => exact .inl ⟨entry, rfl, by simp only [ClientState.lookup, hl]⟩

/-- The two ways a comparison can go. -/
theorem verify_cases (s : ClientState) (entry : SentChunkInfo) (response : ChunkResponse) :
    (response.reversedChunkData = entry.originalDataForVerification.reverse ∧
      s.verify entry response = { s with
        totalBytesVerifiedPayloadByReader :=
          s.totalBytesVerifiedPayloadByReader + entry.originalPayloadSize
        main := .read }) ∨
    (response.reversedChunkData ≠ entry.originalDataForVerification.reverse ∧
      ∃ message, s.verify entry response = { s.logError message with main := .read }) := by
  by_cases hdata : response.reversedChunkData = entry.originalDataForVerification.reverse
  · exact .inl ⟨hdata, by simp [ClientState.verify, hdata]⟩
  · by_cases hlen : response.reversedChunkData.length =
      entry.originalDataForVerification.reverse.length
    · exact .inr ⟨hdata, _, by
        simp only [ClientState.verify, hlen, ne_eq, not_true_eq_false, if_false, hdata,
          not_false_eq_true, if_true]
        rfl⟩
    · exact .inr ⟨hdata, _, by
        simp only [ClientState.verify, hlen, ne_eq, not_false_eq_true, if_true]
        rfl⟩

/-- The leftover check logs an error unless the map is empty. -/
theorem leftover_cases (s : ClientState) :
    (s.inflightRequestsMap.keys = [] ∧ s.leftover = { s with main := .finish }) ∨
    (s.inflightRequestsMap.keys ≠ [] ∧
      ∃ message, s.leftover = { s.logError message with main := .finish }) := by
  by_cases hnil : s.inflightRequestsMap.keys = []
  · exact .inl ⟨hnil, by simp [ClientState.leftover, hnil]⟩
  · exact .inr ⟨hnil, _, by
      simp only [ClientState.leftover, List.isEmpty_iff, hnil, if_false]
      rfl⟩

/-- The status is logged unless it is `OK`. -/
theorem finish_cases (s : ClientState) (status : Status) (now : ℤ) :
    ∃ m, m.errors = s.metricsCollector.errors ∧
      ((status.ok = true ∧
        s.finish status now = { s with metricsCollector := m, main := .check status }) ∨
      (status.ok = false ∧ ∃ message,
        s.finish status now = { s with
          metricsCollector := m.logError message
          main := .check status })) := by
  refine ⟨s.metricsCollector.setTotalTransactionTimeMs
    ((now - s.overallProcessingStartTime).tdiv 1000000), rfl, ?_⟩
  cases hok : status.ok with
  | true => exact .inl ⟨rfl, by simp [ClientState.finish, hok]⟩
  | false =>
    exact .inr ⟨rfl, _, by
      simp only [ClientState.finish, hok, Bool.false_eq_true, if_false]
      rfl⟩

/-- The bytes are compared only when nothing is known to have gone wrong. -/
theorem check_cases (P : Params) (s : ClientState) (status : Status) :
    ((s.writerThreadFinishedSending = true ∧ s.writerStreamBroken = false ∧ status.ok = true) ∧
      ((s.totalBytesVerifiedPayloadByReader ≠ P.actualFileSizeBytes ∧ ∃ message,
          s.check P status = { s.logError message with main := .returned false }) ∨
        (s.totalBytesVerifiedPayloadByReader = P.actualFileSizeBytes ∧
          s.check P status = { s with main := .returned true }))) ∨
    (¬(s.writerThreadFinishedSending = true ∧ s.writerStreamBroken = false ∧ status.ok = true) ∧
      s.check P status = { s with main := .returned false }) := by
  by_cases hgood : s.writerThreadFinishedSending = true ∧ s.writerStreamBroken = false ∧
      status.ok = true
  · obtain ⟨hfin, hbroken, hok⟩ := hgood
    refine .inl ⟨⟨hfin, hbroken, hok⟩, ?_⟩
    by_cases hall : s.totalBytesVerifiedPayloadByReader = P.actualFileSizeBytes
    · exact .inr ⟨hall, by simp [ClientState.check, hfin, hbroken, hok, hall]⟩
    · exact .inl ⟨hall, _, by
        simp only [ClientState.check, hfin, hbroken, hok, hall, Bool.not_false, ne_eq,
          not_false_eq_true, and_self, if_true]
        rfl⟩
  · refine .inr ⟨hgood, ?_⟩
    unfold ClientState.check
    rw [if_neg (fun h => hgood ⟨h.1, by simpa using h.2.1, h.2.2.1⟩),
      if_neg (fun h => hgood ⟨h.1, by simpa using h.2.1, h.2.2.1⟩)]

/-- The thread that called `ProcessFile` only takes entries out of the map, and starts the
writer. -/
structure MainFrame (s t : ClientState) : Prop where
  reader : t.reader = s.reader
  counter : t.clientChunkIdCounter = s.clientChunkIdCounter
  sent : t.totalChunksActuallySentByWriter = s.totalChunksActuallySentByWriter
  broken : t.writerStreamBroken = s.writerStreamBroken
  finished : t.writerThreadFinishedSending = s.writerThreadFinishedSending
  lookup : ∀ {id entry}, t.inflightRequestsMap.lookup id = some entry →
    s.inflightRequestsMap.lookup id = some entry
  writer : t.writer = s.writer ∨ (s.main = .start ∧ t.writer = .wait)
  main : t.main ≠ .start

theorem mainStep_frame {a : MainAction} (hs : mainStep P s a = some t) : MainFrame s t := by
  cases a with
  | openStream ok now =>
    obtain ⟨hm, rfl⟩ := openStream_iff.mp hs
    cases ok with
    | true => exact ⟨rfl, rfl, rfl, rfl, rfl, id, .inr ⟨hm, rfl⟩, by simp⟩
    | false => exact ⟨rfl, rfl, rfl, rfl, rfl, id, .inl rfl, by simp⟩
  | read response now =>
    obtain ⟨-, rfl⟩ := read_iff.mp hs
    refine ⟨rfl, rfl, rfl, rfl, rfl, id, .inl rfl, ?_⟩
    cases response <;> simp
  | throws what =>
    obtain ⟨-, rfl⟩ := main_throws_iff.mp hs
    exact ⟨rfl, rfl, rfl, rfl, rfl, id, .inl rfl, by simp⟩
  | lookup =>
    obtain ⟨response, now, -, rfl⟩ := lookup_iff.mp hs
    rcases lookup_cases s response now with ⟨entry, -, hl⟩ | ⟨-, message, hl⟩
    · rw [hl]
      refine ⟨rfl, rfl, rfl, rfl, rfl, fun {id entry} hid => ?_, .inl rfl, by simp⟩
      by_cases heq : id = toSizeT response.originalClientChunkId
      · rw [heq, AList.lookup_erase] at hid
        cases hid
      · rwa [AList.lookup_erase_ne heq] at hid
    · rw [hl]
      exact ⟨rfl, rfl, rfl, rfl, rfl, id, .inl rfl, by simp⟩
  | account =>
    obtain ⟨_, _, _, -, rfl⟩ := account_iff.mp hs
    exact ⟨rfl, rfl, rfl, rfl, rfl, id, .inl rfl, by simp [ClientState.account]⟩
  | verify =>
    obtain ⟨entry, response, -, rfl⟩ := verify_iff.mp hs
    rcases verify_cases s entry response with ⟨-, hv⟩ | ⟨-, message, hv⟩ <;>
      rw [hv] <;> exact ⟨rfl, rfl, rfl, rfl, rfl, id, .inl rfl, by simp⟩
  | join =>
    obtain ⟨-, -, rfl⟩ := join_iff.mp hs
    exact ⟨rfl, rfl, rfl, rfl, rfl, id, .inl rfl, by simp⟩
  | leftover =>
    obtain ⟨-, rfl⟩ := leftover_iff.mp hs
    rcases leftover_cases s with ⟨-, hv⟩ | ⟨-, message, hv⟩ <;>
      rw [hv] <;> exact ⟨rfl, rfl, rfl, rfl, rfl, id, .inl rfl, by simp⟩
  | finish status now =>
    obtain ⟨-, rfl⟩ := main_finish_iff.mp hs
    obtain ⟨m, -, ⟨-, hv⟩ | ⟨-, message, hv⟩⟩ := finish_cases s status now <;>
      rw [hv] <;> exact ⟨rfl, rfl, rfl, rfl, rfl, id, .inl rfl, by simp⟩
  | check =>
    obtain ⟨status, -, rfl⟩ := check_iff.mp hs
    obtain ⟨-, ⟨-, message, hv⟩ | ⟨-, hv⟩⟩ | ⟨-, hv⟩ := check_cases P s status <;>
      rw [hv] <;> exact ⟨rfl, rfl, rfl, rfl, rfl, id, .inl rfl, by simp⟩

/-- The actions that lead to the program counters of a matched response and after the read
loop. -/
structure MainEnters (a : MainAction) (t : ClientState) : Prop where
  account : ∀ {entry response now}, t.main = .account entry response now → a = .lookup
  leftover : t.main = .leftover → a = .join
  finish : t.main = .finish → a = .leftover
  check : ∀ {status}, t.main = .check status → ∃ now, a = .finish status now
  returned : ∀ {allVerified}, t.main = .returned allVerified →
    a = .check ∨ ∃ now, a = .openStream false now

theorem mainStep_enters {a : MainAction} (hs : mainStep P s a = some t) : MainEnters a t := by
  cases a with
  | openStream ok now =>
    obtain ⟨-, rfl⟩ := openStream_iff.mp hs
    cases ok <;> constructor <;> simp
  | read response now =>
    obtain ⟨-, rfl⟩ := read_iff.mp hs
    cases response <;> constructor <;> simp
  | throws what =>
    obtain ⟨-, rfl⟩ := main_throws_iff.mp hs
    constructor <;> simp
  | lookup =>
    obtain ⟨response, now, -, rfl⟩ := lookup_iff.mp hs
    rcases lookup_cases s response now with ⟨entry, -, heq⟩ | ⟨-, message, heq⟩ <;>
      constructor <;> simp [heq]
  | account =>
    obtain ⟨_, _, _, -, rfl⟩ := account_iff.mp hs
    constructor <;> simp [ClientState.account]
  | verify =>
    obtain ⟨entry, response, -, rfl⟩ := verify_iff.mp hs
    rcases verify_cases s entry response with ⟨-, heq⟩ | ⟨-, message, heq⟩ <;>
      constructor <;> simp [heq]
  | join =>
    obtain ⟨-, -, rfl⟩ := join_iff.mp hs
    constructor <;> simp
  | leftover =>
    obtain ⟨-, rfl⟩ := leftover_iff.mp hs
    rcases leftover_cases s with ⟨-, heq⟩ | ⟨-, message, heq⟩ <;> constructor <;> simp [heq]
  | finish status now =>
    obtain ⟨-, rfl⟩ := main_finish_iff.mp hs
    obtain ⟨m, -, ⟨-, heq⟩ | ⟨-, message, heq⟩⟩ := finish_cases s status now <;>
      constructor <;> simp [heq]
  | check =>
    obtain ⟨status, -, rfl⟩ := check_iff.mp hs
    obtain ⟨-, ⟨-, message, heq⟩ | ⟨-, heq⟩⟩ | ⟨-, heq⟩ := check_cases P s status <;>
      constructor <;> simp [heq]

end ReversalBench.Grpc
