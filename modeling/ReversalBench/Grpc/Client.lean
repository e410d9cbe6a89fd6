import ReversalBench.Lib.Machine
import ReversalBench.Common.ChunkReader
import ReversalBench.Common.MetricsAggregator
import Mathlib.Data.List.AList

/-! The gRPC client (`grpc_client.cpp`): `ProcessFile` with its two threads. The writer
thread reads chunks, writes them to the stream and then enters them in the map of
requests in flight; the calling thread reads responses and looks them up there.
Each thread has a program counter, and its steps are the stretches of code between
two operations that the other thread or the stream can observe. An action names the
step of one thread and carries what the environment decides: the outcome of a stream
operation, an exception, a reading of the clock. -/

namespace ReversalBench.Grpc

open Common (ChunkReader MetricsAggregator)

structure ChunkRequest where
  dataChunk : List UInt8
  clientAssignedChunkId : Int64
  deriving DecidableEq

structure ChunkResponse where
  reversedChunkData : List UInt8
  originalClientChunkId : Int64
  deriving DecidableEq

/-- `grpc::Status`; the code 0 is `OK`. -/
structure Status where
  errorCode : ℕ
  errorMessage : String
  deriving DecidableEq

def Status.ok (status : Status) : Bool := status.errorCode == 0

/-- `static_cast<size_t>` of a signed 64-bit number. -/
def toSizeT (id : Int64) : ℕ := id.toUInt64.toNat

theorem ofNat_toSizeT (id : Int64) : Int64.ofNat (toSizeT id) = id := by
  rw [toSizeT, ← Int64.toBitVec_inj]
  simp

theorem toSizeT_ofNat {n : ℕ} (h : n < 2 ^ 64) : toSizeT (Int64.ofNat n) = n := by
  simpa [toSizeT] using h

structure SentChunkInfo where
  clientAssignedId : ℕ
  originalPayloadSize : ℕ
  onWireRequestSizeBytes : ℕ
  originalDataForVerification : List UInt8
  timeSent : ℤ
  deriving DecidableEq

/-- The constants of the program, and the serialised size of a request, which the
generated code computes. -/
structure Params where
  maxInflightRequests : ℕ
  actualFileSizeBytes : ℕ
  byteSizeLong : ChunkRequest → ℕ

/-- The values in `grpc_client.cpp` and `config.hpp`. -/
def Params.shipped (byteSizeLong : ChunkRequest → ℕ) : Params where
  maxInflightRequests := 2000
  actualFileSizeBytes := 10 * 1024 * 1024 * 1024
  byteSizeLong

/-- `CHUNK_SIZE_BYTES`. -/
def chunkSizeBytes : ChunkSize := ⟨64 * 1024, by decide, by decide⟩

/-- Where the writer thread is. -/
inductive WriterPc where
  | notStarted
  | wait
  | nextChunk
  | write (request : ChunkRequest) (logEntry : SentChunkInfo)
  | insert (logEntry : SentChunkInfo)
  | finish
  | writesDone
  | notifyAll
  | done
  deriving DecidableEq

/-- Where the thread that called `ProcessFile` is. -/
inductive MainPc where
  | start
  | read
  | lookup (response : ChunkResponse) (chunkReceivedTime : ℤ)
  | account (requestLogEntry : SentChunkInfo) (response : ChunkResponse) (chunkReceivedTime : ℤ)
  | verify (requestLogEntry : SentChunkInfo) (response : ChunkResponse)
  | join
  | leftover
  | finish
  | check (status : Status)
  | returned (allVerified : Bool)
  deriving DecidableEq

/-- The local variables of `ProcessFile` that the threads share, those of the threads,
and the two program counters. -/
structure ClientState where
  reader : ChunkReader
  inflightRequestsMap : AList fun _ : ℕ => SentChunkInfo
  writerThreadFinishedSending : Bool
  writerStreamBroken : Bool
  totalChunksActuallySentByWriter : ℕ
  clientChunkIdCounter : ℕ
  receivedResponsesCount : ℕ
  totalBytesVerifiedPayloadByReader : ℕ
  overallProcessingStartTime : ℤ
  metricsCollector : MetricsAggregator
  writer : WriterPc
  main : MainPc

def ClientState.init (disk : Disk) (chunkSize : ChunkSize) : ClientState where
  reader := .new disk chunkSize
  inflightRequestsMap := ∅
  writerThreadFinishedSending := false
  writerStreamBroken := false
  totalChunksActuallySentByWriter := 0
  clientChunkIdCounter := 0
  receivedResponsesCount := 0
  totalBytesVerifiedPayloadByReader := 0
  overallProcessingStartTime := 0
  metricsCollector := .new
  writer := .notStarted
  main := .start

def ClientState.logError (s : ClientState) (message : String) : ClientState :=
  { s with metricsCollector := s.metricsCollector.logError message }

inductive WriterAction where
  | wake
  | nextChunk (now : ℤ)
  | throws (what : String)
  | write (ok : Bool)
  | insert
  | finish
  | writesDone (ok : Bool)
  | notifyAll

inductive MainAction where
  | openStream (ok : Bool) (now : ℤ)
  | read (response : Option ChunkResponse) (now : ℤ)
  | throws (what : String)
  | lookup
  | account
  | verify
  | join
  | leftover
  | finish (status : Status) (now : ℤ)
  | check

inductive Action where
  | writer (a : WriterAction)
  | main (a : MainAction)

/-! ### The writer thread -/

/-- The reader has room for one more request. -/
def ClientState.HasRoom (P : Params) (s : ClientState) : Prop :=
  s.inflightRequestsMap.keys.length < P.maxInflightRequests

instance (P : Params) (s : ClientState) : Decidable (s.HasRoom P) :=
  inferInstanceAs (Decidable (_ < _))

/-- The next chunk is read and its request prepared. An empty chunk is the end of the
file, or an error that ends the thread at once. -/
def ClientState.prepare (P : Params) (s : ClientState) (now : ℤ) : ClientState :=
  let read := s.reader.nextChunk
  let chunkDataBuffer := read.1
  let s := { s with reader := read.2 }
  if chunkDataBuffer.isEmpty ∧ s.reader.eof then { s with writer := .finish }
  else if chunkDataBuffer.isEmpty ∧ !s.reader.eof then
    -- `return` in the lambda: nothing after the loop is executed
    { s.logError "gRPC Client (Writer): Error reading chunk or empty chunk before EOF." with
      writerStreamBroken := true
      writer := .done }
  else
    let clientChunkIdCounter := s.clientChunkIdCounter + 1
    let request := ⟨chunkDataBuffer, Int64.ofNat clientChunkIdCounter⟩
    let logEntry := {
      clientAssignedId := clientChunkIdCounter
      originalPayloadSize := chunkDataBuffer.length
      onWireRequestSizeBytes := P.byteSizeLong request
      originalDataForVerification := chunkDataBuffer
      timeSent := now }
    { s with clientChunkIdCounter, writer := .write request logEntry }

/-- An exception ends the loop of the writer. -/
def ClientState.writerThrows (s : ClientState) (what : String) : ClientState :=
  { s.logError ("Writer thread exception: " ++ what) with
    writerStreamBroken := true
    writer := .finish }

/-- The writer is inside the `try` block and not blocked in `wait`. -/
def WriterPc.inLoop : WriterPc → Bool
  | .nextChunk | .write _ _ | .insert _ => true
  | _ => false

def writerStep (P : Params) (s : ClientState) : WriterAction → Option ClientState
  | .wake =>
    match s.writer with
    | .wait => if s.HasRoom P then some { s with writer := .nextChunk } else none
    | _ => none
  | .nextChunk now =>
    match s.writer with
    | .nextChunk => some (s.prepare P now)
    | _ => none
  | .throws what => if s.writer.inLoop then some (s.writerThrows what) else none
  | .write ok =>
    match s.writer with
    | .write _ logEntry =>
      if ok then
        some { s with
          totalChunksActuallySentByWriter := s.totalChunksActuallySentByWriter + 1
          writer := .insert logEntry }
      -- printed to `std::cerr` only
      else some { s with writerStreamBroken := true, writer := .finish }
    | _ => none
  | .insert =>
    match s.writer with
    | .insert logEntry =>
      some { s with
        inflightRequestsMap := s.inflightRequestsMap.insert logEntry.clientAssignedId logEntry
        writer := .wait }
    | _ => none
  | .finish =>
    match s.writer with
    | .finish =>
      some { s with
        writerThreadFinishedSending := true
        writer := if s.writerStreamBroken then .notifyAll else .writesDone }
    | _ => none
  | .writesDone _ =>
    match s.writer with
    | .writesDone => some { s with writer := .notifyAll }
    | _ => none
  | .notifyAll =>
    match s.writer with
    | .notifyAll => some { s with writer := .done }
    | _ => none

/-! ### The thread that called `ProcessFile` -/

/-- The request of a response is taken out of the map. A response without one is logged
and not processed any further. -/
def ClientState.lookup (s : ClientState) (response : ChunkResponse) (chunkReceivedTime : ℤ) :
    ClientState :=
  let serverEchoedClientId := toSizeT response.originalClientChunkId
  match s.inflightRequestsMap.lookup serverEchoedClientId with
  | some requestLogEntry =>
    { s with
      inflightRequestsMap := s.inflightRequestsMap.erase serverEchoedClientId
      main := .account requestLogEntry response chunkReceivedTime }
  | none =>
    { s.logError ("gRPC Client (Reader): Warning - received response for client_id "
        ++ toString serverEchoedClientId
        ++ ", but no such request was in flight map. Processed responses: "
        ++ toString s.receivedResponsesCount
        ++ ". Map size: " ++ toString s.inflightRequestsMap.keys.length) with
      main := .read }

/-- A matched response is counted and measured. -/
def ClientState.account (s : ClientState) (requestLogEntry : SentChunkInfo)
    (response : ChunkResponse) (chunkReceivedTime : ℤ) : ClientState :=
  let rttUs := (chunkReceivedTime - requestLogEntry.timeSent).tdiv 1000
  { s with
    receivedResponsesCount := s.receivedResponsesCount + 1
    metricsCollector := (s.metricsCollector.recordChunkRttUs rttUs).recordChunkSent
      requestLogEntry.originalPayloadSize requestLogEntry.onWireRequestSizeBytes
    main := .verify requestLogEntry response }

/-- A matched response is compared with the reversed chunk. -/
def ClientState.verify (s : ClientState) (requestLogEntry : SentChunkInfo)
    (response : ChunkResponse) : ClientState :=
  let expectedReversedChunk := requestLogEntry.originalDataForVerification.reverse
  let receivedChunkVec := response.reversedChunkData
  let s := { s with main := .read }
  if receivedChunkVec.length ≠ expectedReversedChunk.length then
    s.logError ("VERIFICATION FAILED for client_id " ++ toString requestLogEntry.clientAssignedId
      ++ ". Size mismatch. Expected " ++ toString expectedReversedChunk.length
      ++ ", got " ++ toString receivedChunkVec.length)
  else if receivedChunkVec ≠ expectedReversedChunk then
    s.logError ("VERIFICATION FAILED for client_id " ++ toString requestLogEntry.clientAssignedId
      ++ ". Content mismatch.")
  else
    { s with
      totalBytesVerifiedPayloadByReader :=
        s.totalBytesVerifiedPayloadByReader + requestLogEntry.originalPayloadSize }

/-- Requests that were not answered are logged. -/
def ClientState.leftover (s : ClientState) : ClientState :=
  let s := { s with main := .finish }
  if s.inflightRequestsMap.keys.isEmpty then s
  else
    s.logError ("gRPC Client: Warning - " ++ toString s.inflightRequestsMap.keys.length
      ++ " requests remaining in flight map after stream completion.")

/-- `Finish` has returned. -/
def ClientState.finish (s : ClientState) (status : Status) (now : ℤ) : ClientState :=
  let totalDurationMs := (now - s.overallProcessingStartTime).tdiv 1000000
  let s := { s with
    metricsCollector := s.metricsCollector.setTotalTransactionTimeMs totalDurationMs
    main := .check status }
  if status.ok then s
  else
    s.logError ("gRPC Client: RPC failed. Final Status - Error code: "
      ++ toString status.errorCode ++ ", message: " ++ status.errorMessage)

/-- The final comparison of the verified bytes with the expected size. -/
def ClientState.check (P : Params) (s : ClientState) (status : Status) : ClientState :=
  if s.writerThreadFinishedSending ∧ !s.writerStreamBroken ∧ status.ok ∧
      s.totalBytesVerifiedPayloadByReader ≠ P.actualFileSizeBytes then
    { s.logError ("Potential data loss or incomplete processing: Verified bytes ("
        ++ toString s.totalBytesVerifiedPayloadByReader
        ++ ") != Expected total bytes (" ++ toString P.actualFileSizeBytes ++ ")") with
      main := .returned false }
  else if s.writerThreadFinishedSending ∧ !s.writerStreamBroken ∧ status.ok ∧
      s.totalBytesVerifiedPayloadByReader = P.actualFileSizeBytes then
    { s with main := .returned true }
  else { s with main := .returned false }

/-- The thread is inside the `try` block of the read loop. -/
def MainPc.inLoop : MainPc → Bool
  | .read | .lookup _ _ | .account _ _ _ | .verify _ _ => true
  | _ => false

def mainStep (P : Params) (s : ClientState) : MainAction → Option ClientState
  | .openStream ok now =>
    match s.main with
    | .start =>
      if ok then
        some { s with overallProcessingStartTime := now, writer := .wait, main := .read }
      else
        some { s.logError "gRPC Client: Failed to create stream. Stub returned nullptr." with
          main := .returned false }
    | _ => none
  | .read response now =>
    match s.main, response with
    | .read, some response => some { s with main := .lookup response now }
    | .read, none => some { s with main := .join }
    | _, _ => none
  | .throws what =>
    if s.main.inLoop then
      some { s.logError ("Exception in Read loop: " ++ what) with main := .join }
    else none
  | .lookup =>
    match s.main with
    | .lookup response chunkReceivedTime => some (s.lookup response chunkReceivedTime)
    | _ => none
  | .account =>
    match s.main with
    | .account requestLogEntry response chunkReceivedTime =>
      some (s.account requestLogEntry response chunkReceivedTime)
    | _ => none
  | .verify =>
    match s.main with
    | .verify requestLogEntry response => some (s.verify requestLogEntry response)
    | _ => none
  | .join =>
    match s.main, s.writer with
    | .join, .done => some { s with main := .leftover }
    | _, _ => none
  | .leftover =>
    match s.main with
    | .leftover => some s.leftover
    | _ => none
  | .finish status now =>
    match s.main with
    | .finish => some (s.finish status now)
    | _ => none
  | .check =>
    match s.main with
    | .check status => some (s.check P status)
    | _ => none

def step (P : Params) (s : ClientState) : Action → Option ClientState
  | .writer a => writerStep P s a
  | .main a => mainStep P s a

end ReversalBench.Grpc
