import ReversalBench.Lib.Machine
import ReversalBench.Lib.StopAndWait
import ReversalBench.Tcp.ChunkReader
import ReversalBench.Tcp.Messaging
import ReversalBench.Tcp.MetricsAggregator

/-! The C++ client (`tcp_client.cpp`). Its handlers send a chunk, read the header and
the body of the answer, compare it with the reversed chunk and go on to the next
one. The client runs against a peer whose bytes arrive in segments, while the
connection is made and writes succeed. -/

namespace ReversalBench.Tcp

/-- The asynchronous operation whose handler will run next. -/
inductive ClientOperation where
  | resolve
  | connect
  | write (buffers : List (List UInt8))
  | readHeader
  | readBody
  deriving DecidableEq

/-- The members of a `TCPClient`, the state of its `io_context`, the operation it has
started and the argument of the call of `stop_client_operations` that took effect. -/
structure TCPClient where
  mMetrics : MetricsAggregator
  mChunkReader : ChunkReader
  mCurrentChunkData : List UInt8
  mExpectedReversedChunk : List UInt8
  mWriteHeaderBuffer : HeaderBuffer
  mReadHeaderBuffer : HeaderBuffer
  mReadBodyBuffer : List UInt8
  mChunksSent : ℕ
  mTotalChunksToSend : ℕ
  mTimerStoppedFlag : Bool
  mOperationsStopped : Bool
  mSocketOpen : Bool
  ioContextStopped : Bool
  pending : Option ClientOperation
  stoppedWith : Option Bool

namespace TCPClient

variable (host : ByteOrder) (chunkSize : ChunkSize)

/-- The constructor. The header buffers hold whatever the memory held. -/
def new (disk : Disk) (metrics : MetricsAggregator) (headers : HeaderBuffer × HeaderBuffer) :
    TCPClient :=
  let reader := ChunkReader.new disk chunkSize
  { mMetrics := metrics
    mChunkReader := reader
    mCurrentChunkData := []
    mExpectedReversedChunk := []
    mWriteHeaderBuffer := headers.1
    mReadHeaderBuffer := headers.2
    mReadBodyBuffer := []
    mChunksSent := 0
    mTotalChunksToSend :=
      if reader.fileSize > 0 ∧ reader.totalChunks = 0 ∧ reader.chunksRead = 0 then 1
      else if reader.fileSize = 0 then 0
      else reader.totalChunks
    mTimerStoppedFlag := false
    mOperationsStopped := false
    mSocketOpen := false
    ioContextStopped := false
    pending := none
    stoppedWith := none }

def start (s : TCPClient) : TCPClient := { s with pending := some .resolve }

def stopClientOperations (s : TCPClient) (errorOccurred : Bool) : TCPClient :=
  if !s.mOperationsStopped then
    { s with
      mOperationsStopped := true
      mMetrics := if !s.mTimerStoppedFlag then s.mMetrics.stopTimer else s.mMetrics
      mTimerStoppedFlag := true
      mSocketOpen := false
      ioContextStopped := true
      stoppedWith := some errorOccurred }
  else s

def doConnect (s : TCPClient) : TCPClient :=
  { s with mSocketOpen := true, pending := some .connect }

/-- The handler of `start`. -/
def onResolve (s : TCPClient) (ec : ErrorCode) : TCPClient :=
  if ec = .success then s.doConnect else s.stopClientOperations true

def sendNextChunk (s : TCPClient) : TCPClient :=
  if s.mOperationsStopped then s
  else if s.mChunksSent ≥ s.mTotalChunksToSend ∨ s.mChunkReader.eof then
    s.stopClientOperations false
  else
    let read := s.mChunkReader.readNextChunk
    let s := { s with mCurrentChunkData := read.1, mChunkReader := read.2 }
    if s.mCurrentChunkData.isEmpty ∧ !s.mChunkReader.eof then
      { s with mMetrics := s.mMetrics.recordChunkVerified false }.stopClientOperations true
    else if s.mCurrentChunkData.isEmpty ∧ s.mChunkReader.eof then
      s.stopClientOperations false
    else
      let message := prepareMessage host s.mCurrentChunkData
      { s with
        mExpectedReversedChunk := getReversedVectorContent s.mCurrentChunkData
        mMetrics := s.mMetrics.startChunkRttTimer
        mWriteHeaderBuffer := message.1
        pending := some (.write message.2) }

/-- The handler of `do_connect`. -/
def onConnect (s : TCPClient) (ec : ErrorCode) : TCPClient :=
  if ec = .success then { s with mMetrics := s.mMetrics.startTimer }.sendNextChunk host
  else s.stopClientOperations true

def doReadHeader (s : TCPClient) : TCPClient :=
  if s.mOperationsStopped then s else { s with pending := some .readHeader }

def doReadBody (s : TCPClient) : TCPClient :=
  if s.mOperationsStopped then s else { s with pending := some .readBody }

/-- The handler of the write of `send_next_chunk`. -/
def onWrite (s : TCPClient) (ec : ErrorCode) : TCPClient :=
  if s.mOperationsStopped then s
  else if ec = .success then s.doReadHeader
  else s.stopClientOperations true

def handleReceivedChunkData (s : TCPClient) : TCPClient :=
  if s.mOperationsStopped then s
  else
    let verified := decide (s.mReadBodyBuffer = s.mExpectedReversedChunk)
    let s := { s with
      mMetrics := s.mMetrics.stopAndRecordChunkRtt s.mCurrentChunkData.length verified }
    if !verified then s.stopClientOperations true
    else
      let s := { s with mChunksSent := s.mChunksSent + 1 }
      if s.mChunksSent ≥ s.mTotalChunksToSend ∨ s.mChunkReader.eof then
        s.stopClientOperations false
      else s.sendNextChunk host

/-- The handler of `do_read_header`. -/
def onReadHeader (s : TCPClient) (ec : ErrorCode) : TCPClient :=
  if s.mOperationsStopped then s
  else if ec = .success then
    let bodyLength := (parseHeader host s.mReadHeaderBuffer).toNat
    if bodyLength > chunkSize.val * 2 then s.stopClientOperations true
    else
      let s := { s with mReadBodyBuffer := resize s.mReadBodyBuffer bodyLength }
      if bodyLength = 0 then s.handleReceivedChunkData host else s.doReadBody
  else if ec = .eof then
    if s.mChunksSent ≥ s.mTotalChunksToSend then s.stopClientOperations false
    else s.stopClientOperations true
  else s.stopClientOperations true

/-- The handler of `do_read_body`. -/
def onReadBody (s : TCPClient) (ec : ErrorCode) (lengthRead : ℕ) : TCPClient :=
  if s.mOperationsStopped then s
  else if ec = .success then
    if lengthRead ≠ s.mReadBodyBuffer.length then s.stopClientOperations true
    else s.handleReceivedChunkData host
  else s.stopClientOperations true

end TCPClient

/-- A client and its connection: what has arrived and is not yet read, and what the
client has written. -/
structure Transfer where
  client : TCPClient
  input : List (List UInt8)
  output : List UInt8

namespace Transfer

variable (host : ByteOrder) (chunkSize : ChunkSize) (peer : List UInt8 → List (List UInt8))

/-- The pending operation completes and its handler runs. When a message was sent,
what the peer answers arrives behind what is already there. -/
def next (c : Transfer) : Option Transfer :=
  let s := { c.client with pending := none }
  match c.client.ioContextStopped, c.client.pending with
  | true, _ => none
  | false, none => none
  | false, some .resolve => some { c with client := s.onResolve .success }
  | false, some .connect => some { c with client := s.onConnect host .success }
  | false, some (.write buffers) =>
    some {
      client := s.onWrite .success
      input := c.input ++ peer buffers.flatten
      output := c.output ++ buffers.flatten }
  | false, some .readHeader =>
    let r := asyncReadHeader s.mReadHeaderBuffer c.input
    let s := { s with mReadHeaderBuffer := r.buffer }
    some { c with client := s.onReadHeader host chunkSize r.ec, input := r.input }
  | false, some .readBody =>
    let r := asyncRead s.mReadBodyBuffer c.input
    let s := { s with mReadBodyBuffer := r.buffer }
    some { c with client := s.onReadBody host r.ec r.lengthRead, input := r.input }

end Transfer

end ReversalBench.Tcp
