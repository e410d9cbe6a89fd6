import ReversalBench.Tcp.Client

/-! Runs of the C++ client. Between two chunks the client is ready to read the next one;
while a chunk is outstanding it waits for the answer. Chunk by chunk its runs are
the stop-and-wait exchange of the chunks that its reader delivers. -/

namespace ReversalBench.Tcp

open ChunkReader (delivered chunksFrom)
open StateTransition (Reaches)
open StopAndWait (converse)

namespace TCPClient

variable {host : ByteOrder} {chunkSize : ChunkSize} {disk : Disk} {k : ℕ} {s : TCPClient}

@[simp] theorem stopClientOperations_mChunksSent (s : TCPClient) (error : Bool) :
    (s.stopClientOperations error).mChunksSent = s.mChunksSent := by
  unfold stopClientOperations; split <;> rfl

@[simp] theorem stopClientOperations_mTotalChunksToSend (s : TCPClient) (error : Bool) :
    (s.stopClientOperations error).mTotalChunksToSend = s.mTotalChunksToSend := by
  unfold stopClientOperations; split <;> rfl

@[simp] theorem stopClientOperations_mChunkReader (s : TCPClient) (error : Bool) :
    (s.stopClientOperations error).mChunkReader = s.mChunkReader := by
  unfold stopClientOperations; split <;> rfl

@[simp] theorem stopClientOperations_verifiedBytes (s : TCPClient) (error : Bool) :
    (s.stopClientOperations error).mMetrics.verifiedBytes = s.mMetrics.verifiedBytes := by
  unfold stopClientOperations
  split
  · dsimp only
    split <;> simp
  · rfl

/-- Stopping the client stops the timer of its metrics. -/
theorem stopClientOperations_mMetrics (h : s.mOperationsStopped = false) (error : Bool) :
    (s.stopClientOperations error).mMetrics =
      if !s.mTimerStoppedFlag then s.mMetrics.stopTimer else s.mMetrics := by
  simp [stopClientOperations, h]

/-! ### The states of a run -/

/-- `k` chunks were verified, all of them full, and the client was not stopped. -/
structure Running (disk : Disk) (chunkSize : ChunkSize) (k : ℕ) (s : TCPClient) : Prop where
  notStopped : s.mOperationsStopped = false
  ioRuns : s.ioContextStopped = false
  sent : s.mChunksSent = k
  total : s.mTotalChunksToSend = Blocks.count chunkSize.val disk.size
  fileSize : s.mChunkReader.mFileSize = disk.size
  verified : s.mMetrics.verifiedBytes = k * chunkSize.val

/-- The next chunk to read is number `k`. -/
structure Ready (disk : Disk) (chunkSize : ChunkSize) (k : ℕ) (s : TCPClient) : Prop
    extends Running disk chunkSize k s where
  reader : s.mChunkReader.At disk chunkSize k

/-- Chunk number `k` was read and is outstanding. -/
structure Awaiting (disk : Disk) (chunkSize : ChunkSize) (k : ℕ) (s : TCPClient) : Prop
    extends Running disk chunkSize k s where
  current : s.mCurrentChunkData = delivered disk chunkSize k
  expected : s.mExpectedReversedChunk = (delivered disk chunkSize k).reverse
  more : k < Blocks.count chunkSize.val disk.size
  eof : s.mChunkReader.eof = decide ((delivered disk chunkSize k).length < chunkSize.val)
  reader : (delivered disk chunkSize k).length = chunkSize.val →
    s.mChunkReader.At disk chunkSize (k + 1)

/-- The client was stopped after `sent` chunks of `bytes` bytes were verified. -/
structure Finished (disk : Disk) (chunkSize : ChunkSize) (error : Bool) (sent bytes : ℕ)
    (s : TCPClient) : Prop where
  ioStopped : s.ioContextStopped = true
  stoppedWith : s.stoppedWith = some error
  sent : s.mChunksSent = sent
  total : s.mTotalChunksToSend = Blocks.count chunkSize.val disk.size
  fileSize : s.mChunkReader.mFileSize = disk.size
  verified : s.mMetrics.verifiedBytes = bytes

theorem Running.stop (h : Running disk chunkSize k s) (error : Bool) :
    Finished disk chunkSize error k (k * chunkSize.val) (s.stopClientOperations error) where
  ioStopped := by simp [stopClientOperations, h.notStopped]
  stoppedWith := by simp [stopClientOperations, h.notStopped]
  sent := (stopClientOperations_mChunksSent s error).trans h.sent
  total := (stopClientOperations_mTotalChunksToSend s error).trans h.total
  fileSize := by rw [stopClientOperations_mChunkReader, h.fileSize]
  verified := (stopClientOperations_verifiedBytes s error).trans h.verified

/-- A new client counts the chunks of the file. -/
theorem totalChunksToSend_new (disk : Disk) (metrics : MetricsAggregator)
    (headers : HeaderBuffer × HeaderBuffer) :
    (new chunkSize disk metrics headers).mTotalChunksToSend =
      Blocks.count chunkSize.val disk.size := by
  have hreader := ChunkReader.totalChunks_new disk chunkSize
  have hsize : (ChunkReader.new disk chunkSize).fileSize = disk.size := rfl
  have hcount := @Blocks.count_pos_iff chunkSize.val chunkSize.pos disk.size
  simp only [new, hreader, hsize]
  split_ifs <;> omega

/-- The socket and the pending operation do not matter. -/
theorem Running.update (h : Running disk chunkSize k s) (op : Option ClientOperation)
    (open' : Bool) : Running disk chunkSize k { s with pending := op, mSocketOpen := open' } :=
  ⟨h.notStopped, h.ioRuns, h.sent, h.total, h.fileSize, h.verified⟩

/-- The buffers and the pending operation do not matter. -/
theorem Awaiting.update (h : Awaiting disk chunkSize k s) (op : Option ClientOperation)
    (header : HeaderBuffer) (body : List UInt8) :
    Awaiting disk chunkSize k
      { s with pending := op, mReadHeaderBuffer := header, mReadBodyBuffer := body } :=
  ⟨⟨h.notStopped, h.ioRuns, h.sent, h.total, h.fileSize, h.verified⟩,
    h.current, h.expected, h.more, h.eof, h.reader⟩

/-! ### Reading a chunk -/

theorem Running.sendNextChunk_stop (h : Running disk chunkSize k s)
    (hk : Blocks.count chunkSize.val disk.size ≤ k) :
    s.sendNextChunk host = s.stopClientOperations false := by
  simp [sendNextChunk, h.notStopped, h.sent, h.total, hk]

theorem Running.sendNextChunk_done (h : Running disk chunkSize k s)
    (hk : Blocks.count chunkSize.val disk.size ≤ k) :
    Finished disk chunkSize false k (k * chunkSize.val) (s.sendNextChunk host) := by
  rw [h.sendNextChunk_stop hk]
  exact h.stop false

/-- A read that delivers nothing is taken for the end of the file. -/
theorem Ready.sendNextChunk_empty_eq (h : Ready disk chunkSize k s)
    (hk : k < Blocks.count chunkSize.val disk.size) (hempty : delivered disk chunkSize k = []) :
    s.sendNextChunk host = { s with
      mCurrentChunkData := []
      mChunkReader := s.mChunkReader.readNextChunk.2 }.stopClientOperations false := by
  obtain ⟨hread, -, heof⟩ := h.reader.readNextChunk
  have heof : s.mChunkReader.readNextChunk.2.eof = true := by
    simp [heof, hempty, chunkSize.pos]
  have hgo : ¬ (s.mChunksSent ≥ s.mTotalChunksToSend ∨ s.mChunkReader.eof = true) := by
    simp [h.sent, h.total, hk, ChunkReader.eof, h.reader.notEof]
  simp [sendNextChunk, h.notStopped, hgo, hread, hempty, heof]

theorem Ready.sendNextChunk_empty (h : Ready disk chunkSize k s)
    (hk : k < Blocks.count chunkSize.val disk.size) (hempty : delivered disk chunkSize k = []) :
    Finished disk chunkSize false k (k * chunkSize.val) (s.sendNextChunk host) := by
  obtain ⟨-, hsize, -⟩ := h.reader.readNextChunk
  have hrun : Running disk chunkSize k
      { s with mCurrentChunkData := [], mChunkReader := s.mChunkReader.readNextChunk.2 } :=
    ⟨h.notStopped, h.ioRuns, h.sent, h.total, hsize, h.verified⟩
  rw [h.sendNextChunk_empty_eq hk hempty]
  exact hrun.stop false

/-- The client after it has read a chunk that is not empty and begun to write it. -/
theorem Ready.sendNextChunk_eq (h : Ready disk chunkSize k s)
    (hk : k < Blocks.count chunkSize.val disk.size) (hne : delivered disk chunkSize k ≠ []) :
    s.sendNextChunk host = { s with
      mCurrentChunkData := delivered disk chunkSize k
      mChunkReader := s.mChunkReader.readNextChunk.2
      mExpectedReversedChunk := (delivered disk chunkSize k).reverse
      mMetrics := s.mMetrics.startChunkRttTimer
      mWriteHeaderBuffer := (prepareMessage host (delivered disk chunkSize k)).1
      pending := some (.write (prepareMessage host (delivered disk chunkSize k)).2) } := by
  obtain ⟨hread, -, -⟩ := h.reader.readNextChunk
  have hgo : ¬ (s.mChunksSent ≥ s.mTotalChunksToSend ∨ s.mChunkReader.eof = true) := by
    simp [h.sent, h.total, hk, ChunkReader.eof, h.reader.notEof]
  simp [sendNextChunk, h.notStopped, hgo, hread, hne, getReversedVectorContent]

theorem Ready.sendNextChunk_chunk (h : Ready disk chunkSize k s)
    (hk : k < Blocks.count chunkSize.val disk.size) (hne : delivered disk chunkSize k ≠ []) :
    Awaiting disk chunkSize k (s.sendNextChunk host) ∧
    (s.sendNextChunk host).pending =
      some (.write (prepareMessage host (delivered disk chunkSize k)).2) := by
  obtain ⟨-, hsize, heof⟩ := h.reader.readNextChunk
  rw [h.sendNextChunk_eq hk hne]
  exact ⟨⟨⟨h.notStopped, h.ioRuns, h.sent, h.total, hsize, h.verified⟩, rfl, rfl, hk, heof,
    h.reader.succ⟩, rfl⟩

/-! ### Comparing an answer -/

/-- A wrong answer is recorded, and the client stops. -/
theorem Awaiting.handle_wrong_eq (h : Awaiting disk chunkSize k s)
    (hbody : s.mReadBodyBuffer ≠ (delivered disk chunkSize k).reverse) :
    s.handleReceivedChunkData host = { s with
      mMetrics := s.mMetrics.stopAndRecordChunkRtt
        (delivered disk chunkSize k).length false }.stopClientOperations true := by
  simp [handleReceivedChunkData, h.notStopped, h.expected, h.current, hbody]

theorem Awaiting.handle_wrong (h : Awaiting disk chunkSize k s)
    (hbody : s.mReadBodyBuffer ≠ (delivered disk chunkSize k).reverse) :
    Finished disk chunkSize true k (k * chunkSize.val) (s.handleReceivedChunkData host) := by
  have hrun : Running disk chunkSize k { s with
      mMetrics := s.mMetrics.stopAndRecordChunkRtt (delivered disk chunkSize k).length false } :=
    ⟨h.notStopped, h.ioRuns, h.sent, h.total, h.fileSize, by simp [h.verified]⟩
  rw [h.handle_wrong_eq hbody]
  exact hrun.stop true

/-- The client after a verified chunk. -/
def verifiedNext (s : TCPClient) : TCPClient := { s with
  mMetrics := s.mMetrics.stopAndRecordChunkRtt s.mCurrentChunkData.length true
  mChunksSent := s.mChunksSent + 1 }

theorem Awaiting.handle_right (h : Awaiting disk chunkSize k s)
    (hbody : s.mReadBodyBuffer = (delivered disk chunkSize k).reverse) :
    s.handleReceivedChunkData host =
      if k + 1 ≥ Blocks.count chunkSize.val disk.size ∨
          (delivered disk chunkSize k).length < chunkSize.val then
        s.verifiedNext.stopClientOperations false
      else s.verifiedNext.sendNextChunk host := by
  simp [handleReceivedChunkData, verifiedNext, h.notStopped, h.expected, hbody, h.sent, h.total,
    h.eof]

theorem Awaiting.verifiedBytes_next (h : Awaiting disk chunkSize k s) :
    s.verifiedNext.mMetrics.verifiedBytes =
      k * chunkSize.val + (delivered disk chunkSize k).length := by
  simp [verifiedNext, h.verified, h.current]

/-- The last chunk is one that is not full or the last of the count. -/
theorem Awaiting.handle_last (h : Awaiting disk chunkSize k s)
    (hbody : s.mReadBodyBuffer = (delivered disk chunkSize k).reverse)
    (hlast : k + 1 ≥ Blocks.count chunkSize.val disk.size ∨
      (delivered disk chunkSize k).length < chunkSize.val) :
    Finished disk chunkSize false (k + 1) (k * chunkSize.val + (delivered disk chunkSize k).length)
      (s.handleReceivedChunkData host) := by
  rw [h.handle_right hbody, if_pos hlast]
  constructor
  · simp [stopClientOperations, verifiedNext, h.notStopped]
  · simp [stopClientOperations, verifiedNext, h.notStopped]
  · simp [verifiedNext, h.sent]
  · simp [verifiedNext, h.total]
  · simp [verifiedNext, h.fileSize]
  · rw [stopClientOperations_verifiedBytes, h.verifiedBytes_next]

theorem Awaiting.handle_more (h : Awaiting disk chunkSize k s)
    (hbody : s.mReadBodyBuffer = (delivered disk chunkSize k).reverse)
    (hmore : k + 1 < Blocks.count chunkSize.val disk.size)
    (hfull : (delivered disk chunkSize k).length = chunkSize.val) :
    Ready disk chunkSize (k + 1) s.verifiedNext ∧
    s.handleReceivedChunkData host = s.verifiedNext.sendNextChunk host := by
  refine ⟨⟨⟨h.notStopped, h.ioRuns, congrArg Nat.succ h.sent, h.total, h.fileSize, ?_⟩,
    h.reader hfull⟩, ?_⟩
  · rw [h.verifiedBytes_next, hfull, Nat.succ_mul]
  · rw [h.handle_right hbody, if_neg]
    omega

/-! ### The handlers while a chunk is outstanding -/

theorem Awaiting.onWrite_success (h : Awaiting disk chunkSize k s) :
    s.onWrite .success = { s with pending := some .readHeader } := by
  simp only [onWrite, doReadHeader, h.notStopped, Bool.false_eq_true, if_false, if_true]

theorem Awaiting.onWrite_error (h : Awaiting disk chunkSize k s) {ec : ErrorCode}
    (hec : ec ≠ .success) : s.onWrite ec = s.stopClientOperations true := by
  simp only [onWrite, h.notStopped, Bool.false_eq_true, if_false, hec]

/-- The end of the stream is an error too, since the chunk is not answered. -/
theorem Awaiting.onReadHeader_error (h : Awaiting disk chunkSize k s) {ec : ErrorCode}
    (hec : ec ≠ .success) : s.onReadHeader host chunkSize ec = s.stopClientOperations true := by
  have hmore : ¬ s.mChunksSent ≥ s.mTotalChunksToSend := by
    rw [h.sent, h.total]
    exact not_le.mpr h.more
  simp only [onReadHeader, h.notStopped, Bool.false_eq_true, if_false, hec, hmore]
  split <;> rfl

theorem Awaiting.onReadHeader_long (h : Awaiting disk chunkSize k s)
    (hlong : (parseHeader host s.mReadHeaderBuffer).toNat > chunkSize.val * 2) :
    s.onReadHeader host chunkSize .success = s.stopClientOperations true := by
  simp only [onReadHeader, h.notStopped, Bool.false_eq_true, if_false, if_true, hlong]

theorem Awaiting.onReadHeader_empty (h : Awaiting disk chunkSize k s)
    (hzero : (parseHeader host s.mReadHeaderBuffer).toNat = 0) :
    s.onReadHeader host chunkSize .success =
      ({ s with mReadBodyBuffer := [] } : TCPClient).handleReceivedChunkData host := by
  have hnil : resize s.mReadBodyBuffer 0 = [] := by
    rw [← List.length_eq_zero_iff, length_resize]
  simp only [onReadHeader, h.notStopped, Bool.false_eq_true, if_false, if_true, hzero, gt_iff_lt,
    Nat.not_lt_zero, hnil]

theorem Awaiting.onReadHeader_body (h : Awaiting disk chunkSize k s)
    (hle : ¬ (parseHeader host s.mReadHeaderBuffer).toNat > chunkSize.val * 2)
    (hpos : (parseHeader host s.mReadHeaderBuffer).toNat ≠ 0) :
    s.onReadHeader host chunkSize .success = { s with
      mReadBodyBuffer :=
        resize s.mReadBodyBuffer (parseHeader host s.mReadHeaderBuffer).toNat
      pending := some .readBody } := by
  simp only [onReadHeader, doReadBody, h.notStopped, Bool.false_eq_true, if_false, if_true, hle,
    hpos]

theorem Awaiting.onReadBody_error (h : Awaiting disk chunkSize k s) {ec : ErrorCode}
    {lengthRead : ℕ} (hbad : ec ≠ .success ∨ lengthRead ≠ s.mReadBodyBuffer.length) :
    s.onReadBody host ec lengthRead = s.stopClientOperations true := by
  by_cases hec : ec = .success
  · have hlength := hbad.resolve_left (not_not.mpr hec)
    simp only [onReadBody, h.notStopped, Bool.false_eq_true, if_false, hec, if_true, hlength, ne_eq,
      not_false_eq_true]
  · simp only [onReadBody, h.notStopped, Bool.false_eq_true, if_false, hec]

theorem Awaiting.onReadBody_full (h : Awaiting disk chunkSize k s) :
    s.onReadBody host .success s.mReadBodyBuffer.length = s.handleReceivedChunkData host := by
  simp only [onReadBody, h.notStopped, Bool.false_eq_true, if_false, if_true, ne_eq,
    not_true_eq_false]

end TCPClient

/-! ### Writing a chunk and reading its answer -/

namespace Transfer

open TCPClient

variable {host : ByteOrder} {chunkSize : ChunkSize} {peer : List UInt8 → List (List UInt8)}
  {disk : Disk} {k : ℕ} {s : TCPClient} {input : List (List UInt8)} {output : List UInt8}

theorem next_onWrite (h : Awaiting disk chunkSize k s) {buffers : List (List UInt8)}
    (hp : s.pending = some (.write buffers)) :
    next host chunkSize peer ⟨s, input, output⟩ =
      some ⟨({ s with pending := none } : TCPClient).onWrite .success,
        input ++ peer buffers.flatten, output ++ buffers.flatten⟩ := by
  simp only [next, h.ioRuns, hp]

/-- The message is written and the client turns to the header of the answer. -/
theorem next_write (h : Awaiting disk chunkSize k s) {buffers : List (List UInt8)}
    (hp : s.pending = some (.write buffers)) :
    next host chunkSize peer ⟨s, input, output⟩ =
      some ⟨{ s with pending := some .readHeader }, input ++ peer buffers.flatten,
        output ++ buffers.flatten⟩ := by
  rw [next_onWrite h hp]
  exact congrArg (fun client => some (Transfer.mk client _ _))
    (h.update none s.mReadHeaderBuffer s.mReadBodyBuffer).onWrite_success

theorem next_onReadHeader (h : Awaiting disk chunkSize k s) (hp : s.pending = some .readHeader) :
    next host chunkSize peer ⟨s, input, output⟩ =
      let r := asyncReadHeader s.mReadHeaderBuffer input
      some ⟨({ s with pending := none, mReadHeaderBuffer := r.buffer } : TCPClient).onReadHeader
        host chunkSize r.ec, r.input, output⟩ := by
  simp only [next, h.ioRuns, hp]

theorem next_onReadBody (h : Awaiting disk chunkSize k s) (hp : s.pending = some .readBody) :
    next host chunkSize peer ⟨s, input, output⟩ =
      let r := asyncRead s.mReadBodyBuffer input
      some ⟨({ s with pending := none, mReadBodyBuffer := r.buffer } : TCPClient).onReadBody
        host r.ec r.lengthRead, r.input, output⟩ := by
  simp only [next, h.ioRuns, hp]

/-- The header of a body that is to be read. -/
theorem next_header (h : Awaiting disk chunkSize k s) (hp : s.pending = some .readHeader)
    {header : HeaderBuffer} {n : ℕ} {input' : List (List UInt8)}
    (hr : asyncReadHeader s.mReadHeaderBuffer input = ⟨.success, n, header, input'⟩)
    (hle : ¬ (parseHeader host header).toNat > chunkSize.val * 2)
    (hpos : (parseHeader host header).toNat ≠ 0) :
    next host chunkSize peer ⟨s, input, output⟩ =
      some ⟨{ s with
        mReadHeaderBuffer := header
        mReadBodyBuffer := resize s.mReadBodyBuffer (parseHeader host header).toNat
        pending := some .readBody }, input', output⟩ := by
  rw [next_onReadHeader h hp, hr]
  exact congrArg (fun client => some (Transfer.mk client input' output))
    ((h.update none header s.mReadBodyBuffer).onReadHeader_body hle hpos)

/-- A frame within the limit is read into the body buffer and handed over. -/
theorem next_frame (h : Awaiting disk chunkSize k s) (hp : s.pending = some .readHeader)
    {p r : List UInt8} (hn : lengthHeader.next (accepts chunkSize) input.flatten = some (p, r)) :
    ∃ header input', Reaches (next host chunkSize peer) ⟨s, input, output⟩
        ⟨({ s with pending := none, mReadHeaderBuffer := header, mReadBodyBuffer := p } :
          TCPClient).handleReceivedChunkData host, input', output⟩ ∧
      input'.flatten = r := by
  obtain ⟨hb, hok, hin⟩ := HeaderCode.next_eq_some_iff.mp hn
  have hle : ¬ p.length > chunkSize.val * 2 := by simpa [accepts] using hok
  obtain ⟨header, input₁, hr, hd, hrest⟩ := asyncReadHeader_full host s.mReadHeaderBuffer
    (hin ▸ HeaderCode.declared_frame (r := r) hb)
  have hrest : input₁.flatten = p ++ r := by
    rw [hrest, hin]
    exact @HeaderCode.drop_frame _ lengthHeader p r
  by_cases hp0 : p.length = 0
  · have hnil : p = [] := List.length_eq_zero_iff.mp hp0
    refine ⟨header, input₁, .single ?_, by simpa [hnil] using hrest⟩
    rw [next_onReadHeader h hp, hr, hnil]
    exact congrArg (fun client => some (Transfer.mk client input₁ output))
      ((h.update none header s.mReadBodyBuffer).onReadHeader_empty (hd.trans hp0))
  · have hlen := length_resize s.mReadBodyBuffer p.length
    obtain ⟨input₂, hr₂, hrest₂⟩ := @asyncRead_full (resize s.mReadBodyBuffer p.length) input₁
      (by rw [hlen, hrest, List.length_append]; omega)
    rw [hlen, hrest, List.take_left] at hr₂
    rw [hlen, hrest, List.drop_left] at hrest₂
    have hheader := @next_header host _ peer _ _ _ _ output h hp _ _ _ hr (hd ▸ hle) (hd ▸ hp0)
    rw [hd] at hheader
    refine ⟨header, input₂, .head hheader (.single ?_), hrest₂⟩
    have hbody := h.update (some .readBody) header (resize s.mReadBodyBuffer p.length)
    rw [next_onReadBody hbody rfl, hr₂]
    exact congrArg (fun client => some (Transfer.mk client input₂ output))
      (h.update none header p).onReadBody_full

/-- Where no frame within the limit comes, the client stops with an error. In particular
it is not done when the peer closes the connection instead of answering. -/
theorem next_stop (h : Awaiting disk chunkSize k s) (hp : s.pending = some .readHeader)
    (hn : lengthHeader.next (accepts chunkSize) input.flatten = none) :
    ∃ s' input', Reaches (next host chunkSize peer) ⟨s, input, output⟩ ⟨s', input', output⟩ ∧
      Finished disk chunkSize true k (k * chunkSize.val) s' ∧
      s'.mMetrics = (s.stopClientOperations true).mMetrics := by
  have heof : ErrorCode.eof ≠ .success := by decide
  have hstops : ∀ header body, Finished disk chunkSize true k (k * chunkSize.val)
      (({ s with pending := none, mReadHeaderBuffer := header, mReadBodyBuffer := body } :
        TCPClient).stopClientOperations true) ∧
      (({ s with pending := none, mReadHeaderBuffer := header, mReadBodyBuffer := body } :
        TCPClient).stopClientOperations true).mMetrics =
          (s.stopClientOperations true).mMetrics := by
    intro header body
    refine ⟨(h.update none header body).toRunning.stop true, ?_⟩
    simp only [stopClientOperations_mMetrics, h.notStopped]
  rcases HeaderCode.next_eq_none_iff.mp hn with hdecl | ⟨d, hdecl, hshort⟩
  · obtain ⟨n, header, input', hr, -⟩ := asyncReadHeader_short s.mReadHeaderBuffer hdecl
    refine ⟨_, input', .single ?_, hstops header s.mReadBodyBuffer⟩
    rw [next_onReadHeader h hp, hr]
    exact congrArg (fun client => some (Transfer.mk client input' output))
      ((h.update none header s.mReadBodyBuffer).onReadHeader_error heof)
  obtain ⟨header, input₁, hr, hd, hrest⟩ := asyncReadHeader_full host s.mReadHeaderBuffer hdecl
  by_cases hle : d > chunkSize.val * 2
  · refine ⟨_, input₁, .single ?_, hstops header s.mReadBodyBuffer⟩
    rw [next_onReadHeader h hp, hr]
    exact congrArg (fun client => some (Transfer.mk client input₁ output))
      ((h.update none header s.mReadBodyBuffer).onReadHeader_long (hd ▸ hle))
  · have hok : accepts chunkSize d = true := decide_eq_true (not_lt.mp hle)
    have hlt : input₁.flatten.length < d := by
      rw [hrest]
      exact hshort.resolve_left (by simp [hok])
    have hne : d ≠ 0 := by omega
    obtain ⟨input₂, hr₂, -⟩ := @asyncRead_short (resize s.mReadBodyBuffer d) input₁
      (hlt.trans_eq (length_resize _ _).symm)
    have hheader := @next_header host _ peer _ _ _ _ output h hp _ _ _ hr (hd ▸ hle) (hd ▸ hne)
    rw [hd] at hheader
    let body := input₁.flatten ++ (resize s.mReadBodyBuffer d).drop input₁.flatten.length
    refine ⟨_, input₂, .head hheader (.single ?_), hstops header body⟩
    have hbody := h.update (some .readBody) header (resize s.mReadBodyBuffer d)
    rw [next_onReadBody hbody rfl, hr₂]
    exact congrArg (fun client => some (Transfer.mk client input₂ output))
      ((h.update none header body).onReadBody_error (.inl heof))

/-! ### Whole runs -/

theorem halts_of_finished {error : Bool} {sent bytes : ℕ}
    (h : Finished disk chunkSize error sent bytes s) (input : List (List UInt8))
    (output : List UInt8) :
    Machine.Halts (next host chunkSize peer) ⟨s, input, output⟩ ⟨s, input, output⟩ := by
  apply Machine.halts_of_none
  simp only [next, h.ioStopped]

/-- How a run over the chunks `cs` ends, from the state after `k` full chunks on. -/
structure Ends (disk : Disk) (chunkSize : ChunkSize) (k : ℕ) (cs : List (List UInt8))
    (verdict : List (List UInt8) × Bool) (output : List UInt8) (t : Transfer) : Prop where
  output : t.output = output ++ lengthHeader.encode verdict.1
  finished : ∃ sent bytes, Finished disk chunkSize (!verdict.2) sent bytes t.client ∧
    (verdict.2 = true → sent = k + cs.length ∧
      bytes = k * chunkSize.val + (cs.map List.length).sum)

/-- The chunk that is outstanding, and the frame that carries it. -/
private abbrev message (disk : Disk) (chunkSize : ChunkSize) (k : ℕ) : List UInt8 :=
  lengthHeader.frame (delivered disk chunkSize k)

/-- The chunk is sent and its expected answer comes. -/
theorem exchange_right (h : Awaiting disk chunkSize k s)
    (hp : s.pending = some (.write (prepareMessage host (delivered disk chunkSize k)).2))
    {r : List UInt8}
    (hn : lengthHeader.next (accepts chunkSize)
        (input.flatten ++ (peer (message disk chunkSize k)).flatten) =
      some ((delivered disk chunkSize k).reverse, r)) :
    ∃ s' input', Reaches (next host chunkSize peer) ⟨s, input, output⟩
        ⟨s'.handleReceivedChunkData host, input', output ++ message disk chunkSize k⟩ ∧
      input'.flatten = r ∧ Awaiting disk chunkSize k s' ∧
      s'.mReadBodyBuffer = (delivered disk chunkSize k).reverse := by
  have hsent := @next_write host _ peer _ _ _ input output h _ hp
  rw [prepareMessage_flatten] at hsent
  rw [← List.flatten_append] at hn
  have hread := h.update (some .readHeader) s.mReadHeaderBuffer s.mReadBodyBuffer
  obtain ⟨header, input', hreach, hrest⟩ := next_frame hread rfl hn
  exact ⟨_, input', .head hsent hreach, hrest, hread.update none header _, rfl⟩

/-- The chunk is sent and no answer comes. -/
theorem exchange_none (h : Awaiting disk chunkSize k s)
    (hp : s.pending = some (.write (prepareMessage host (delivered disk chunkSize k)).2))
    (hn : lengthHeader.next (accepts chunkSize)
      (input.flatten ++ (peer (message disk chunkSize k)).flatten) = none) :
    ∃ s' input', Reaches (next host chunkSize peer) ⟨s, input, output⟩
        ⟨s', input', output ++ message disk chunkSize k⟩ ∧
      Finished disk chunkSize true k (k * chunkSize.val) s' ∧
      s'.mMetrics = (s.stopClientOperations true).mMetrics := by
  have hsent := @next_write host _ peer _ _ _ input output h _ hp
  rw [prepareMessage_flatten] at hsent
  rw [← List.flatten_append] at hn
  have hread := h.update (some .readHeader) s.mReadHeaderBuffer s.mReadBodyBuffer
  obtain ⟨s', input', hreach, hfin, hmetrics⟩ := next_stop hread rfl hn
  refine ⟨s', input', .head hsent hreach, hfin, hmetrics.trans ?_⟩
  simp only [stopClientOperations_mMetrics, h.notStopped]

/-- The chunk is sent and another answer comes, or none. -/
theorem exchange_wrong (h : Awaiting disk chunkSize k s)
    (hp : s.pending = some (.write (prepareMessage host (delivered disk chunkSize k)).2))
    (hne : ∀ r, lengthHeader.next (accepts chunkSize)
        (input.flatten ++ (peer (message disk chunkSize k)).flatten) ≠
      some ((delivered disk chunkSize k).reverse, r)) :
    ∃ s' input', Reaches (next host chunkSize peer) ⟨s, input, output⟩
        ⟨s', input', output ++ message disk chunkSize k⟩ ∧
      Finished disk chunkSize true k (k * chunkSize.val) s' := by
  cases hn : lengthHeader.next (accepts chunkSize)
      (input.flatten ++ (peer (message disk chunkSize k)).flatten) with
  | none =>
    obtain ⟨s', input', hreach, hfin, -⟩ := exchange_none h hp hn
    exact ⟨s', input', hreach, hfin⟩
  | some pr =>
    have hsent := @next_write host _ peer _ _ _ input output h _ hp
    rw [prepareMessage_flatten] at hsent
    have hread := h.update (some .readHeader) s.mReadHeaderBuffer s.mReadBodyBuffer
    have hn' := hn
    rw [← List.flatten_append] at hn'
    obtain ⟨header, input', hreach, -⟩ := @next_frame host _ peer _ _ _ _ _ hread rfl pr.1 pr.2 hn'
    refine ⟨_, input', .head hsent hreach, (hread.update none header pr.1).handle_wrong ?_⟩
    rintro hp
    exact hne pr.2 (hn.trans (congrArg (fun p => some (p, pr.2)) hp))

/-- From a chunk boundary on, the client is the stop-and-wait exchange of the chunks that
are still to be read. -/
theorem run (host : ByteOrder) (peer : List UInt8 → List (List UInt8)) (n : ℕ) :
    ∀ (k : ℕ) (s : TCPClient) (input : List (List UInt8)) (output : List UInt8),
      n + k = Blocks.count chunkSize.val disk.size → Ready disk chunkSize k s →
      ∃ t, Machine.Halts (next host chunkSize peer) ⟨s.sendNextChunk host, input, output⟩ t ∧
        Ends disk chunkSize k (chunksFrom disk chunkSize n k)
          (converse lengthHeader (accepts chunkSize) List.reverse (fun m => (peer m).flatten)
            (chunksFrom disk chunkSize n k) input.flatten) output t := by
  induction n with
  | zero =>
    intro k s input output hn h
    have hfin := @Running.sendNextChunk_done host _ _ _ _ h.toRunning (by omega)
    exact ⟨_, halts_of_finished hfin input output, (List.append_nil _).symm, k, _, hfin,
      fun _ => ⟨rfl, rfl⟩⟩
  | succ n ih =>
    intro k s input output hn h
    have hk : k < Blocks.count chunkSize.val disk.size := by omega
    by_cases hempty : delivered disk chunkSize k = []
    · have hfin := @Ready.sendNextChunk_empty host _ _ _ _ h hk hempty
      rw [ChunkReader.chunksFrom_of_nil hempty]
      exact ⟨_, halts_of_finished hfin input output, (List.append_nil _).symm, k, _, hfin,
        fun _ => ⟨rfl, rfl⟩⟩
    obtain ⟨hawait, hwrite⟩ := @Ready.sendNextChunk_chunk host _ _ _ _ h hk hempty
    rw [ChunkReader.chunksFrom_succ hempty]
    generalize htl : (if (delivered disk chunkSize k).length < chunkSize.val then [] else
      chunksFrom disk chunkSize n (k + 1)) = tl
    rcases @StopAndWait.converse_cons _ _ lengthHeader (accepts chunkSize) List.reverse
      (fun m => (peer m).flatten) (delivered disk chunkSize k) tl input.flatten with
      ⟨r, hr, hconv⟩ | ⟨hne, hconv⟩
    · obtain ⟨s', input', hreach, hrest, hdone, hbody⟩ :=
        @exchange_right host _ peer _ _ _ input output hawait hwrite r hr
      rw [hconv]
      by_cases hlast : k + 1 ≥ Blocks.count chunkSize.val disk.size ∨
          (delivered disk chunkSize k).length < chunkSize.val
      · have hnil : tl = [] := by
          rcases hlast with hlast | hshort
          · have hn0 : n = 0 := by omega
            rw [← htl, hn0]
            split <;> rfl
          · rw [← htl, if_pos hshort]
        have hfin := @Awaiting.handle_last host _ _ _ _ hdone hbody hlast
        subst hnil
        refine ⟨_, Machine.halts_of_reaches hreach (halts_of_finished hfin _ _), ?_, k + 1, _,
          hfin, fun _ => ⟨rfl, ?_⟩⟩
        · exact congrArg (output ++ ·) (List.append_nil _).symm
        · simp
      · obtain ⟨hmore, hfull⟩ := not_or.mp hlast
        have hle := ChunkReader.length_delivered_le disk chunkSize k
        have hfull : (delivered disk chunkSize k).length = chunkSize.val := by omega
        obtain ⟨hready, hhandle⟩ := @Awaiting.handle_more host _ _ _ _ hdone hbody (by omega) hfull
        obtain ⟨t, ht, hout, sent, bytes, hfin, hcount⟩ := ih (k + 1) _ input'
          (output ++ message disk chunkSize k) (by omega) hready
        rw [if_neg (by omega)] at htl
        rw [htl, hrest] at hout hfin hcount
        rw [← hhandle] at ht
        refine ⟨t, Machine.halts_of_reaches hreach ht, ?_, sent, bytes, hfin, fun hv => ?_⟩
        · rw [hout, HeaderCode.encode_cons, List.append_assoc]
        · obtain ⟨hs, hb⟩ := hcount hv
          rw [hs, hb, List.length_cons, List.map_cons, List.sum_cons, hfull, Nat.succ_mul]
          exact ⟨by omega, by omega⟩
    · obtain ⟨s', input', hreach, hfin⟩ :=
        @exchange_wrong host _ peer _ _ _ input output hawait hwrite hne
      rw [hconv]
      refine ⟨_, Machine.halts_of_reaches hreach (halts_of_finished hfin _ _), ?_, k, _, hfin,
        fun h => Bool.noConfusion h⟩
      exact congrArg (output ++ ·) (List.append_nil _).symm

end Transfer

end ReversalBench.Tcp
