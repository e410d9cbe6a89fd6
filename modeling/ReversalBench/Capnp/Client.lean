import ReversalBench.Lib.Clock
import ReversalBench.Lib.Machine
import ReversalBench.Common.ChunkReader
import ReversalBench.Common.MetricsAggregator

/-! The Cap'n Proto client (`capnp_client.cpp`): `main`, from the check of the test file to
the exit status. It makes one call at a time and waits for it; a call returns or throws.
What the environment decides is fixed before the run: the outcome of every call and of the
steps that prepare the transfer. -/

namespace ReversalBench.Capnp

open Common (ChunkReader MetricsAggregator)

/-- What the `catch` clauses tell apart. -/
inductive Thrown where
  | kj (description : String)
  | std (what : String)
  | unknown
  deriving DecidableEq

def Thrown.message : Thrown → String
  | .kj description => "KJ Exception: " ++ description
  | .std what => "STD Exception: " ++ what
  | .unknown => "Unknown exception."

/-- The calls that the client makes. -/
inductive Call where
  | startStreaming
  | processChunk (data : List UInt8)
  | doneStreaming
  deriving DecidableEq

/-- What happens around the client: the size of the test file that it finds, whether one can
be generated, the outcome of connecting, of the calls and of opening the file, and the
clock. -/
structure Env where
  existingFileSize : Option ℕ
  generateTestFile : Bool
  connect : Except Thrown Unit
  startStreaming : Except Thrown Unit
  openFile : Except Thrown Unit
  processChunk : ℕ → Except Thrown (List UInt8)
  doneStreaming : Except Thrown Unit

/-- The constants of the program and the file that it reads. -/
structure Params where
  targetFileSizeBytes : ℕ
  chunkSizeBytes : ChunkSize
  disk : Disk

/-- Where `main` is. -/
inductive Pc where
  | prepareFile
  | connect
  | startStreaming
  | openFile
  | loop
  | doneStreaming
  | finalCheck
  | save
  | exited (status : ℕ)
  deriving DecidableEq

/-- The local variables of `main`, the calls made so far, and whether the line "All data
successfully processed and verified by client." has been printed. -/
structure Client where
  metrics : MetricsAggregator
  reader : ChunkReader
  chunksSent : ℕ
  totalBytesVerifiedPayload : ℕ
  overallStartTime : ℤ
  clock : Clock
  calls : List Call
  announced : Bool
  pc : Pc

namespace Client

def init (P : Params) (clock : Clock) : Client where
  metrics := .new
  reader := .new P.disk P.chunkSizeBytes
  chunksSent := 0
  totalBytesVerifiedPayload := 0
  overallStartTime := 0
  clock
  calls := []
  announced := false
  pc := .prepareFile

def logError (c : Client) (message : String) : Client :=
  { c with metrics := c.metrics.logError message }

def call (c : Client) (call : Call) : Client := { c with calls := c.calls ++ [call] }

/-- A `catch` clause: the error is logged, the metrics are saved, and `main` returns 1. -/
def caught (c : Client) (e : Thrown) : Client :=
  { c.logError e.message with pc := .exited 1 }

/-- A call that must return for `main` to go on. -/
def awaited (c : Client) (outcome : Except Thrown Unit) (pc : Pc) : Client :=
  match outcome with
  | .error e => c.caught e
  | .ok () => { c with pc }

/-- Leave the loop. -/
def leave (c : Client) : Client :=
  let totalDurationMs := (c.clock.now - c.overallStartTime).tdiv 1000000
  { c with
    metrics := c.metrics.setTotalTransactionTimeMs totalDurationMs
    clock := c.clock.tick
    pc := .doneStreaming }

/-- The reply to a chunk is compared with the reversed chunk. -/
def verify (c : Client) (chunkBuffer response : List UInt8) : Client :=
  let expectedReversedChunk := chunkBuffer.reverse
  let chunk := "Verification FAILED for chunk " ++ toString (c.chunksSent + 1)
  if response.length ≠ expectedReversedChunk.length then
    (c.logError (chunk ++ ": Size mismatch. Expected " ++ toString expectedReversedChunk.length
      ++ ", Got " ++ toString response.length)).leave
  else if response ≠ expectedReversedChunk then
    (c.logError (chunk ++ ": Content mismatch.")).leave
  else
    { c with
      totalBytesVerifiedPayload := c.totalBytesVerifiedPayload + chunkBuffer.length
      chunksSent := c.chunksSent + 1 }

/-- A chunk is recorded as sent, the clock is read, and the call is made. -/
def send (c : Client) (chunkBuffer : List UInt8) : Client :=
  let currentPayloadSize := chunkBuffer.length
  { c with
    metrics := c.metrics.recordChunkSent currentPayloadSize currentPayloadSize
    clock := c.clock.tick }.call (.processChunk chunkBuffer)

/-- A call that was made at `chunkRttStartTime` has returned. -/
def received (c : Client) (chunkRttStartTime : ℤ) : Client :=
  let rttDurationUs := (c.clock.now - chunkRttStartTime).tdiv 1000
  { c with
    metrics := c.metrics.recordChunkRttUs rttDurationUs
    clock := c.clock.tick }

/-- A chunk is sent and its reply awaited. -/
def exchange (env : Env) (c : Client) (chunkBuffer : List UInt8) : Client :=
  match env.processChunk c.chunksSent with
  | .error e => (c.send chunkBuffer).caught e
  | .ok response => ((c.send chunkBuffer).received c.clock.now).verify chunkBuffer response

theorem verify_reader_calls (c : Client) (chunkBuffer response : List UInt8) :
    (c.verify chunkBuffer response).reader = c.reader ∧
      (c.verify chunkBuffer response).calls = c.calls := by
  unfold verify
  dsimp only
  split
  · exact ⟨rfl, rfl⟩
  · split <;> exact ⟨rfl, rfl⟩

/-- An exchange leaves the reader alone and makes one call. -/
theorem exchange_reader_calls (env : Env) (c : Client) (chunkBuffer : List UInt8) :
    (c.exchange env chunkBuffer).reader = c.reader ∧
      (c.exchange env chunkBuffer).calls = c.calls ++ [.processChunk chunkBuffer] := by
  unfold exchange
  split
  · exact ⟨rfl, rfl⟩
  · exact verify_reader_calls _ _ _

/-- One round of the loop. -/
def round (env : Env) (c : Client) : Client :=
  let read := c.reader.nextChunk
  let chunkBuffer := read.1
  let c := { c with reader := read.2 }
  if chunkBuffer.isEmpty ∧ c.reader.eof then c.leave
  else if chunkBuffer.isEmpty ∧ !c.reader.eof then
    (c.logError "Read empty chunk but not EOF.").leave
  else c.exchange env chunkBuffer

/-- The final comparison of the verified bytes with the expected size. -/
def finalCheck (P : Params) (c : Client) : Client :=
  if c.totalBytesVerifiedPayload ≠ P.targetFileSizeBytes then
    { c.logError ("Not all data was verified! Verified (payload): "
        ++ toString c.totalBytesVerifiedPayload
        ++ " Expected: " ++ toString P.targetFileSizeBytes) with
      pc := .save }
  else { c with announced := true, pc := .save }

/-- One step of `main`. -/
def next (P : Params) (env : Env) (c : Client) : Option Client :=
  match c.pc with
  | .prepareFile =>
    if env.existingFileSize = some P.targetFileSizeBytes ∨ env.generateTestFile then
      some { c with pc := .connect }
    else some { c.logError "Failed to generate test file" with pc := .exited 1 }
  | .connect => some (c.awaited env.connect .startStreaming)
  | .startStreaming =>
    some ((c.call .startStreaming).awaited env.startStreaming .openFile)
  | .openFile =>
    match env.openFile with
    | .error e => some (c.caught e)
    | .ok () => some { c with
        overallStartTime := c.clock.now
        clock := c.clock.tick
        pc := .loop }
  | .loop => some (c.round env)
  | .doneStreaming =>
    some ((c.call .doneStreaming).awaited env.doneStreaming .finalCheck)
  | .finalCheck => some (c.finalCheck P)
  | .save => some { c with pc := .exited 0 }
  | .exited _ => none

end Client

end ReversalBench.Capnp
