import ReversalBench.GoTcp.Client

/-! The rounds of the Go client's loop, cut in two. The only place where a round waits for
the server is the read of the answer: the first half ends when the chunk was sent, the
second starts when the answer has come. Of the connection, the first half uses the writes
and the second the one read. -/

namespace ReversalBench.GoTcp

/-- A chunk that was sent, its expected answer and the time before it was sent. -/
structure Outstanding where
  chunkData : List UInt8
  expectedReversedChunk : List UInt8
  rttStart : ℤ

/-- Between two rounds of the loop, or inside one, waiting for the answer. -/
inductive Round (σ : Type*) where
  | between (c : Client σ)
  | waiting (c : Client σ) (sent : Outstanding)

/-! ### The two halves of a round -/

namespace Client

variable {σ : Type*} (host : Host σ)

/-- `exchange` up to the read of the answer. -/
def send (c : Client σ) (chunkData : List UInt8) : Round σ :=
  match getReversedBytes chunkData with
  | none => .between { c with status := .aborted .panicked }
  | some expectedReversedChunk =>
    let rttStart := host.now c.conn
    match writeMessage host.toNetConn rttStart.2 chunkData with
    | (some err, conn) => .between (abort host { c with conn := conn } (.writeFailed err))
    | (none, conn) =>
      .waiting { c with conn := conn } ⟨chunkData, expectedReversedChunk, rttStart.1⟩

/-- `exchange` from the answer on. -/
def judge (c : Client σ) (sent : Outstanding) (receivedData : List UInt8) : Client σ :=
  let rttEnd := host.now c.conn
  let verified := decide (receivedData = sent.expectedReversedChunk)
  let metrics := c.metricsAggregator.recordChunkRTT c.i (rttEnd.1 - sent.rttStart)
  let metrics := metrics.recordChunkProcessed sent.chunkData.length
  let metrics := metrics.recordChunkVerified verified
  let c := { c with conn := rttEnd.2, metricsAggregator := metrics }
  if !verified then abort host c .verificationFailed
  else if c.chunkReader.eof ∧ sent.chunkData.length > 0 then leave host c
  else { c with i := c.i + 1 }

/-- `exchange` from the read of the answer on. -/
def receive (c : Client σ) (sent : Outstanding) : Client σ :=
  match readMessage host.toNetConn c.conn with
  | (.error err, conn) => abort host { c with conn := conn } (.responseFailed err)
  | (.ok receivedData, conn) => judge host { c with conn := conn } sent receivedData

/-- `process` up to the read of the answer. -/
def beginProcess (c : Client σ) (chunkData : List UInt8) : Round σ :=
  if chunkData.length = 0 ∧ c.chunkReader.eof then
    if c.i = 0 ∧ c.chunkReader.fileSize = 0 then .between (leave host c)
    else if c.i > 0 ∧ c.chunkReader.eof then .between (leave host c)
    else send host c chunkData
  else send host c chunkData

/-- A round of the loop up to the read of the answer. -/
def begin (c : Client σ) : Option (Round σ) :=
  match c.status with
  | .finished => none
  | .aborted _ => none
  | .running =>
    let read := c.chunkReader.readNextChunk
    let chunkData := read.1.1
    let c := { c with chunkReader := read.2 }
    match read.1.2 with
    | none => some (beginProcess host c chunkData)
    | some .eof =>
      if chunkData.length = 0 then some (.between (leave host c))
      else some (beginProcess host c chunkData)
    | some err => some (.between (abort host c (.readFailed err)))

end Client

namespace Round

variable {σ : Type*} (host : Host σ)

/-- The rest of the round. -/
def finish : Round σ → Client σ
  | .between c => c
  | .waiting c sent => c.receive host sent

theorem finish_send (c : Client σ) (chunkData : List UInt8) :
    (c.send host chunkData).finish host = c.exchange host chunkData := by
  unfold Client.send Client.exchange
  cases getReversedBytes chunkData with
  | none => rfl
  | some expected =>
    dsimp only
    rcases writeMessage host.toNetConn (host.now c.conn).2 chunkData with ⟨_ | err, conn⟩
    · rfl
    · rfl

theorem finish_beginProcess (c : Client σ) (chunkData : List UInt8) :
    (c.beginProcess host chunkData).finish host = c.process host chunkData := by
  unfold Client.beginProcess Client.process
  split_ifs
  · rfl
  · rfl
  · exact finish_send host c chunkData
  · exact finish_send host c chunkData

/-- The two halves make up a round of the loop. -/
theorem finish_begin (c : Client σ) :
    (c.begin host).map (finish host) = c.next host := by
  unfold Client.begin Client.next
  cases c.status with
  | finished => rfl
  | aborted why => rfl
  | running =>
    dsimp only
    cases c.chunkReader.readNextChunk.1.2 with
    | none => exact congrArg some (finish_beginProcess host _ _)
    | some err =>
      cases err with
      | eof =>
        dsimp only
        split_ifs
        · rfl
        · exact congrArg some (finish_beginProcess host _ _)
      | unexpectedEOF => rfl
      | other message => rfl

end Round

/-! ### What a round does not read -/

/-- The same client on another connection. -/
def Client.map {σ τ : Type*} (φ : σ → τ) (c : Client σ) : Client τ :=
  ⟨φ c.conn, c.chunkReader, c.metricsAggregator, c.i, c.status⟩

def Round.map {σ τ : Type*} (φ : σ → τ) : Round σ → Round τ
  | .between c => .between (c.map φ)
  | .waiting c sent => .waiting (c.map φ) sent

section Map

variable {σ : Type*} {host : Host σ} {φ : σ → σ}
  (hnow : ∀ s, host.now (φ s) = ((host.now s).1, φ (host.now s).2))

include hnow

theorem Client.leave_map (c : Client σ) : (c.map φ).leave host = (c.leave host).map φ := by
  simp only [Client.leave, Client.stopTimer, Client.map, hnow]

theorem Client.abort_map (c : Client σ) (why : Abort) :
    (c.map φ).abort host why = (c.abort host why).map φ := by
  simp only [Client.abort, Client.stopTimer, Client.map, hnow]

/-- Only the time matters to the second half of a round once the answer is there. -/
theorem Client.judge_map (c : Client σ) (sent : Outstanding) (receivedData : List UInt8) :
    (c.map φ).judge host sent receivedData = (c.judge host sent receivedData).map φ := by
  let c' : Client σ := { c with
    conn := (host.now c.conn).2
    metricsAggregator := ((c.metricsAggregator.recordChunkRTT c.i
      ((host.now c.conn).1 - sent.rttStart)).recordChunkProcessed
        sent.chunkData.length).recordChunkVerified
          (decide (receivedData = sent.expectedReversedChunk)) }
  have habort := Client.abort_map hnow c' .verificationFailed
  have hleave := Client.leave_map hnow c'
  simp only [Client.map, c'] at habort hleave
  simp only [Client.judge, Client.map, hnow]
  split_ifs
  · exact habort
  · exact hleave
  · rfl

variable (hwrite : ∀ s bytes,
  writeMessage host.toNetConn (φ s) bytes =
    ((writeMessage host.toNetConn s bytes).1, φ (writeMessage host.toNetConn s bytes).2))

include hwrite

theorem Client.send_map (c : Client σ) (chunkData : List UInt8) :
    (c.map φ).send host chunkData = (c.send host chunkData).map φ := by
  simp only [Client.send, Client.map, hnow, hwrite]
  cases getReversedBytes chunkData with
  | none => rfl
  | some expected =>
    dsimp only
    rcases writeMessage host.toNetConn (host.now c.conn).2 chunkData with ⟨_ | err, conn⟩
    · rfl
    · exact congrArg Round.between
        (Client.abort_map hnow ({ c with conn := conn } : Client σ) (.writeFailed err))

theorem Client.beginProcess_map (c : Client σ) (chunkData : List UInt8) :
    (c.map φ).beginProcess host chunkData = (c.beginProcess host chunkData).map φ := by
  have hreader : (c.map φ).chunkReader = c.chunkReader := rfl
  have hround : (c.map φ).i = c.i := rfl
  simp only [Client.beginProcess, hreader, hround]
  split_ifs
  · exact congrArg Round.between (Client.leave_map hnow c)
  · exact congrArg Round.between (Client.leave_map hnow c)
  · exact Client.send_map hnow hwrite c chunkData
  · exact Client.send_map hnow hwrite c chunkData

/-- The time and the writes are all that matters to the first half of a round. -/
theorem Client.begin_map (c : Client σ) :
    (c.map φ).begin host = (c.begin host).map (Round.map φ) := by
  let c' : Client σ := { c with
    chunkReader := c.chunkReader.readNextChunk.2
    status := .running }
  have hreader : (c.map φ).chunkReader = c.chunkReader := rfl
  have hstatus : (c.map φ).status = c.status := rfl
  unfold Client.begin
  rw [hstatus, hreader]
  cases c.status with
  | finished => rfl
  | aborted why => rfl
  | running =>
    dsimp only
    cases c.chunkReader.readNextChunk.1.2 with
    | none => exact congrArg some (Client.beginProcess_map hnow hwrite c' _)
    | some err =>
      cases err with
      | eof =>
        dsimp only
        split_ifs
        · exact congrArg (fun c => some (Round.between c)) (Client.leave_map hnow c')
        · exact congrArg some (Client.beginProcess_map hnow hwrite c' _)
      | unexpectedEOF =>
        exact congrArg (fun c => some (Round.between c)) (Client.abort_map hnow c' _)
      | other message =>
        exact congrArg (fun c => some (Round.between c)) (Client.abort_map hnow c' _)

end Map

end ReversalBench.GoTcp
