import ReversalBench.Tcp.Exchange
import ReversalBench.Tcp.Server

/-! What the C++ client's verdict says: against a server that sends an arbitrary stream,
and against an honest server while the file may be read only in part. -/

namespace ReversalBench.Tcp

open StateTransition (Reaches)
open StopAndWait (converse Answered)
open ChunkReader (chunks)

namespace TCPClient

variable {host : ByteOrder} {chunkSize : ChunkSize} {s : TCPClient}

/-! ### The header of an answer is read before the last chunk is done -/

/-- With an operation pending the client is not stopped, and once it is connected not all
chunks are done. -/
def Waiting (s : TCPClient) : Prop :=
  ∀ op, s.pending = some op → s.mOperationsStopped = false ∧
    (op = .resolve ∨ op = .connect ∨ s.mChunksSent < s.mTotalChunksToSend)

theorem waiting_of_none (h : s.pending = none) : s.Waiting := by
  intro op hop
  rw [h] at hop
  cases hop

theorem stopClientOperations_pending (s : TCPClient) (error : Bool) :
    (s.stopClientOperations error).pending = s.pending := by
  unfold stopClientOperations; split <;> rfl

theorem waiting_stop (h : s.pending = none) (error : Bool) :
    (s.stopClientOperations error).Waiting :=
  waiting_of_none ((stopClientOperations_pending s error).trans h)

theorem waiting_sendNextChunk (h : s.pending = none) : (s.sendNextChunk host).Waiting := by
  unfold sendNextChunk
  split
  · exact waiting_of_none h
  next hrun =>
    split
    · apply waiting_stop
      exact h
    next hgo =>
      dsimp only
      split
      · apply waiting_stop
        exact h
      · split
        · apply waiting_stop
          exact h
        · intro op _
          exact ⟨Bool.eq_false_iff.mpr hrun, .inr (.inr (not_le.mp (not_or.mp hgo).1))⟩

theorem waiting_handleReceivedChunkData (h : s.pending = none) :
    (s.handleReceivedChunkData host).Waiting := by
  unfold handleReceivedChunkData
  split
  · exact waiting_of_none h
  · dsimp only
    split
    · apply waiting_stop
      exact h
    · split
      · apply waiting_stop
        exact h
      · apply waiting_sendNextChunk
        exact h

theorem waiting_onWrite (hrun : s.mOperationsStopped = false)
    (hmore : s.mChunksSent < s.mTotalChunksToSend) : (s.onWrite .success).Waiting := by
  intro op _
  simp only [onWrite, doReadHeader, hrun, Bool.false_eq_true, if_false, if_true]
  exact ⟨trivial, .inr (.inr hmore)⟩

theorem waiting_onReadHeader (h : s.pending = none) (hmore : s.mChunksSent < s.mTotalChunksToSend)
    (ec : ErrorCode) : (s.onReadHeader host chunkSize ec).Waiting := by
  unfold onReadHeader
  split
  · exact waiting_of_none h
  next hrun =>
    split
    · dsimp only
      split
      · apply waiting_stop
        exact h
      · split
        · apply waiting_handleReceivedChunkData
          exact h
        · intro op _
          rw [doReadBody, if_neg hrun]
          exact ⟨Bool.eq_false_iff.mpr hrun, .inr (.inr hmore)⟩
    · split
      · split
        · apply waiting_stop
          exact h
        · apply waiting_stop
          exact h
      · apply waiting_stop
        exact h

theorem waiting_onReadBody (h : s.pending = none) (ec : ErrorCode) (n : ℕ) :
    (s.onReadBody host ec n).Waiting := by
  unfold onReadBody
  split
  · exact waiting_of_none h
  · split
    · split
      · apply waiting_stop
        exact h
      · apply waiting_handleReceivedChunkData
        exact h
    · apply waiting_stop
      exact h

/-- A client that waits for a header stops with an error when the peer has closed. -/
theorem Waiting.onReadHeader_eof (h : s.Waiting) (hp : s.pending = some .readHeader) :
    (s.onReadHeader host chunkSize .eof).stoppedWith = some true := by
  obtain ⟨hrun, hmore⟩ := h _ hp
  have hmore : ¬ s.mTotalChunksToSend ≤ s.mChunksSent := by
    rcases hmore with hop | hop | hmore
    · cases hop
    · cases hop
    · exact not_le.mpr hmore
  simp [onReadHeader, hrun, hmore, stopClientOperations]

end TCPClient

namespace Transfer

open TCPClient

variable {host : ByteOrder} {chunkSize : ChunkSize} {peer : List UInt8 → List (List UInt8)}

theorem waiting_next {c c' : Transfer} (h : c.client.Waiting)
    (hn : next host chunkSize peer c = some c') : c'.client.Waiting := by
  obtain ⟨s, input, output⟩ := c
  cases hio : s.ioContextStopped with
  | true => simp [next, hio] at hn
  | false =>
    cases hp : s.pending with
    | none => simp [next, hio, hp] at hn
    | some op =>
      obtain ⟨hrun, hmore⟩ := h op hp
      cases op with
      | resolve =>
        simp only [next, hio, hp, Option.some.injEq] at hn
        subst hn
        intro op hop
        cases hop
        exact ⟨hrun, .inr (.inl rfl)⟩
      | connect =>
        simp only [next, hio, hp, Option.some.injEq] at hn
        subst hn
        apply waiting_sendNextChunk
        rfl
      | write buffers =>
        simp only [next, hio, hp, Option.some.injEq] at hn
        subst hn
        have hlt := (hmore.resolve_left (by simp)).resolve_left (by simp)
        apply waiting_onWrite
        · exact hrun
        · exact hlt
      | readHeader =>
        simp only [next, hio, hp, Option.some.injEq] at hn
        subst hn
        have hlt := (hmore.resolve_left (by simp)).resolve_left (by simp)
        apply waiting_onReadHeader
        · rfl
        · exact hlt
      | readBody =>
        simp only [next, hio, hp, Option.some.injEq] at hn
        subst hn
        apply waiting_onReadBody
        rfl

theorem waiting_reaches {c c' : Transfer} (h : c.client.Waiting)
    (hr : Reaches (next host chunkSize peer) c c') : c'.client.Waiting := by
  induction hr with
  | refl => exact h
  | tail _ hstep ih => exact waiting_next ih hstep

/-! ### From the start -/

/-- Name resolution and connecting bring the client to its first chunk. -/
theorem start_reaches (disk : Disk) (clock : Clock) (headers : HeaderBuffer × HeaderBuffer)
    (input : List (List UInt8)) :
    ∃ s, Reaches (next host chunkSize peer)
        ⟨(TCPClient.new chunkSize disk (.new clock) headers).start, input, []⟩
        ⟨s.sendNextChunk host, input, []⟩ ∧
      Running disk chunkSize 0 s ∧ s.mChunkReader = .new disk chunkSize ∧
      s.mMetrics = (MetricsAggregator.new clock).startTimer ∧ s.mTimerStoppedFlag = false := by
  let s := { TCPClient.new chunkSize disk (.new clock) headers with
    mSocketOpen := true
    mMetrics := (MetricsAggregator.new clock).startTimer }
  have htotal : s.mTotalChunksToSend = Blocks.count chunkSize.val disk.size :=
    totalChunksToSend_new disk (.new clock) headers
  refine ⟨s, .head rfl (.single rfl), ⟨rfl, rfl, rfl, htotal, rfl, ?_⟩, rfl, rfl, rfl⟩
  simp [s]

/-- The client's run is the stop-and-wait exchange of the chunks that its reader
delivers. -/
theorem transfer_ends (host : ByteOrder) (chunkSize : ChunkSize)
    (peer : List UInt8 → List (List UInt8)) (disk : Disk) (clock : Clock)
    (headers : HeaderBuffer × HeaderBuffer) (input : List (List UInt8)) :
    ∃ t, Machine.Halts (next host chunkSize peer)
        ⟨(TCPClient.new chunkSize disk (.new clock) headers).start, input, []⟩ t ∧
      Ends disk chunkSize 0 (chunks disk chunkSize)
        (converse lengthHeader (accepts chunkSize) List.reverse (fun m => (peer m).flatten)
          (chunks disk chunkSize) input.flatten) [] t := by
  obtain ⟨s, hreach, hrun, hreader, -⟩ :=
    @start_reaches host chunkSize peer disk clock headers input
  by_cases hsize : disk.size = 0
  · have hcount : Blocks.count chunkSize.val disk.size = 0 := by rw [hsize, Blocks.count_zero]
    have hfin := @Running.sendNextChunk_done host _ _ _ _ hrun hcount.le
    have hnil : chunks disk chunkSize = [] := by
      rw [chunks, hcount]
      rfl
    rw [hnil]
    exact ⟨_, Machine.halts_of_reaches hreach (halts_of_finished hfin _ _), rfl, 0, _, hfin,
      fun _ => ⟨rfl, rfl⟩⟩
  · have hready : Ready disk chunkSize 0 s :=
      ⟨hrun, hreader ▸ ChunkReader.at_new hsize⟩
    obtain ⟨t, ht, hends⟩ := run host peer _ 0 s input [] rfl hready
    exact ⟨t, Machine.halts_of_reaches hreach ht, hends⟩

/-! ### An arbitrary server -/

/-- The chunks are within the limit of the reader. -/
theorem accepts_chunks (disk : Disk) (chunkSize : ChunkSize) :
    ∀ c ∈ chunks disk chunkSize, accepts chunkSize c.reverse.length = true := by
  intro c hc
  apply accepts_of_le
  rw [List.length_reverse]
  exact ChunkReader.length_le_of_mem_chunksFrom hc

/-- The verdict on a file that is read as it is, whatever bytes the server sends: the
client succeeds if and only if all chunks have a length that fits the header and the
server's bytes begin with the frames of the reversed chunks. It has then sent all
chunks; otherwise it stops with an error and has sent the chunks up to the first one
whose answer is missing or different. Wherever it waits for a header, the end of the
connection is an error to it. -/
theorem client_verdict (host : ByteOrder) (f : File) (chunkSize : ChunkSize) (clock : Clock)
    (headers : HeaderBuffer × HeaderBuffer) (input : List (List UInt8)) :
    ∃ t, Machine.Halts (next host chunkSize fun _ => [])
        ⟨(TCPClient.new chunkSize (Disk.ofFile f) (.new clock) headers).start, input, []⟩ t ∧
      (t.client.stoppedWith = some false ↔
        Answered lengthHeader List.reverse (Blocks.blocks chunkSize.val f.bytes) input.flatten) ∧
      (t.client.stoppedWith = some false →
        t.output = lengthHeader.encode (Blocks.blocks chunkSize.val f.bytes)) ∧
      (t.client.stoppedWith ≠ some false → t.client.stoppedWith = some true ∧
        ∃ k < (Blocks.blocks chunkSize.val f.bytes).length,
          Answered lengthHeader List.reverse ((Blocks.blocks chunkSize.val f.bytes).take k)
            input.flatten ∧
          ¬ Answered lengthHeader List.reverse
            ((Blocks.blocks chunkSize.val f.bytes).take (k + 1)) input.flatten ∧
          t.output = lengthHeader.encode ((Blocks.blocks chunkSize.val f.bytes).take (k + 1))) ∧
      ∀ c, Reaches (next host chunkSize fun _ => [])
          ⟨(TCPClient.new chunkSize (Disk.ofFile f) (.new clock) headers).start, input, []⟩ c →
        c.client.pending = some .readHeader →
        (c.client.onReadHeader host chunkSize .eof).stoppedWith = some true := by
  obtain ⟨t, ht, hout, sent, bytes, hfin, -⟩ :=
    transfer_ends host chunkSize (fun _ => []) (Disk.ofFile f) clock headers input
  have hok := accepts_chunks (Disk.ofFile f) chunkSize
  rw [List.nil_append] at hout
  simp only [List.flatten_nil, ChunkReader.chunks_ofFile] at hout hfin hok
  have hstop := hfin.stoppedWith
  have hiff : t.client.stoppedWith = some false ↔
      Answered lengthHeader List.reverse (Blocks.blocks chunkSize.val f.bytes) input.flatten := by
    rw [hstop, ← StopAndWait.converse_snd_iff hok, Option.some.injEq, Bool.not_eq_false']
  refine ⟨t, ht, hiff, fun h => ?_, fun h => ⟨?_, ?_⟩, fun c hreach hp => ?_⟩
  · rw [hout, StopAndWait.converse_fst_of_snd]
    exact (StopAndWait.converse_snd_iff hok _).mpr (hiff.mp h)
  · have hnot := mt (StopAndWait.converse_snd_iff hok _).mp (mt hiff.mpr h)
    rw [hstop, Bool.eq_false_iff.mpr hnot]
    rfl
  · obtain ⟨k, hk, hans, hnot, hsent⟩ := StopAndWait.converse_of_not_answered hok (mt hiff.mpr h)
    exact ⟨k, hk, hans, hnot, by rw [hout, hsent]⟩
  · have hstart : (TCPClient.new chunkSize (Disk.ofFile f) (.new clock) headers).start.Waiting := by
      intro op hop
      cases hop
      exact ⟨rfl, .inl rfl⟩
    exact (waiting_reaches hstart hreach).onReadHeader_eof hp

/-- A file of 2^32 bytes. -/
def largeFile : File := ⟨List.replicate (2 ^ 32) 0, by rw [List.length_replicate]; decide⟩

/-- Chunks of 2^32 bytes. -/
def largeChunkSize : ChunkSize := ⟨2 ^ 32, by decide, by decide⟩

/-- A chunk of 2^32 bytes has a header that declares none of them: the client stops with
an error although the server sends the frames of all reversed chunks. -/
theorem client_rejects_large_chunk :
    ∃ t, Machine.Halts (next .little largeChunkSize fun _ => [])
        ⟨(TCPClient.new largeChunkSize (Disk.ofFile largeFile)
          (.new ⟨fun n => n, 0⟩) (⟨[0, 0, 0, 0], rfl⟩, ⟨[0, 0, 0, 0], rfl⟩)).start,
          [lengthHeader.encode
            ((Blocks.blocks largeChunkSize.val largeFile.bytes).map List.reverse)], []⟩ t ∧
      t.client.stoppedWith = some true ∧ t.client.stoppedWith ≠ some false := by
  obtain ⟨t, ht, hout, sent, bytes, hfin, -⟩ := transfer_ends .little largeChunkSize (fun _ => [])
    (Disk.ofFile largeFile) ⟨fun n => n, 0⟩ (⟨[0, 0, 0, 0], rfl⟩, ⟨[0, 0, 0, 0], rfl⟩)
    [lengthHeader.encode
      ((Blocks.blocks largeChunkSize.val largeFile.bytes).map List.reverse)]
  have hok := accepts_chunks (Disk.ofFile largeFile) largeChunkSize
  have hlen : largeFile.bytes.length = 2 ^ 32 := List.length_replicate
  have hne : largeFile.bytes ≠ [] := by
    rintro h
    rw [h] at hlen
    norm_num at hlen
  have hnot : ¬ Answered lengthHeader List.reverse (chunks (Disk.ofFile largeFile) largeChunkSize)
      [lengthHeader.encode
        ((Blocks.blocks largeChunkSize.val largeFile.bytes).map List.reverse)].flatten := by
    rintro ⟨hb, -⟩
    rw [ChunkReader.chunks_ofFile, Blocks.blocks_eq_cons largeChunkSize.pos hne] at hb
    have hlt := hb _ List.mem_cons_self
    have htake : (largeFile.bytes.take largeChunkSize.val).length = 2 ^ 32 := by
      rw [List.length_take, hlen]
      exact min_self _
    rw [List.length_reverse, htake, lengthHeader_bound] at hlt
    exact lt_irrefl _ hlt
  have hfalse := Bool.eq_false_iff.mpr (mt (StopAndWait.converse_snd_iff hok _).mp hnot)
  have hstop := hfin.stoppedWith
  simp only [List.flatten_nil, hfalse, Bool.not_false] at hstop
  exact ⟨t, ht, hstop, by simp [hstop]⟩

/-! ### An honest server -/

/-- What a reversing server writes when a message arrives. -/
def honest (chunkSize : ChunkSize) (message : List UInt8) : List (List UInt8) :=
  [lengthHeader.encode
    ((lengthHeader.parse (accepts chunkSize) message).1.map List.reverse)]

/-- It is what the session of the C++ server writes. -/
theorem honest_eq_session (host : ByteOrder) (chunkSize : ChunkSize) (session : TCPSession)
    (message : List UInt8) :
    ∃ t, Machine.Halts (Serving.next host chunkSize) ⟨session.doReadHeader, [message], []⟩ t ∧
      t.output = (honest chunkSize message).flatten := by
  obtain ⟨t, ht, hout, -⟩ := Serving.serve host session [message] []
  refine ⟨t, ht, ?_⟩
  simpa [honest] using hout

theorem honest_frame {c : List UInt8} (hok : accepts chunkSize c.reverse.length = true)
    (hb : c.reverse.length < lengthHeader.bound) :
    (honest chunkSize (lengthHeader.frame c)).flatten = lengthHeader.frame c.reverse := by
  rw [List.length_reverse] at hok hb
  have hparse : lengthHeader.parse (accepts chunkSize) (lengthHeader.encode [c]) = ([c], []) := by
    apply HeaderCode.parse_encode
    intro p hp
    rw [List.mem_singleton.mp hp]
    exact ⟨hb, hok⟩
  rw [HeaderCode.encode_cons, HeaderCode.encode_nil, List.append_nil] at hparse
  simp [honest, hparse]

/-- The run is an error, or all chunks of the count were verified and they have as many
bytes as the file. -/
def Whole (t : Transfer) : Prop :=
  t.client.stoppedWith = some true ∨
    (t.client.stoppedWith = some false ∧
      t.client.mChunksSent = t.client.mTotalChunksToSend ∧
      t.client.mMetrics.verifiedBytes = t.client.mChunkReader.fileSize)

/-- Against an honest server a run ends with an error or on the whole file if and only if
every read that the client makes delivers the block of the file that is due, or so many
bytes that they cannot be verified. -/
theorem client_whole_iff (host : ByteOrder) (disk : Disk) (chunkSize : ChunkSize)
    (clock : Clock) (headers : HeaderBuffer × HeaderBuffer) :
    ∃ t, Machine.Halts (next host chunkSize (honest chunkSize))
        ⟨(TCPClient.new chunkSize disk (.new clock) headers).start, [], []⟩ t ∧
      (t.Whole ↔ ChunkReader.ReadsBlocks disk chunkSize (2 ^ 32) 0) := by
  obtain ⟨t, ht, -, sent, bytes, hfin, hcount⟩ :=
    transfer_ends host chunkSize (honest chunkSize) disk clock headers []
  have hok := accepts_chunks disk chunkSize
  have hiff := @StopAndWait.converse_honest_iff _ _ lengthHeader (accepts chunkSize) List.reverse
    (fun m => (honest chunkSize m).flatten) _ hok (fun c hc hb => honest_frame (hok c hc) hb)
  simp only [List.length_reverse, lengthHeader_bound] at hiff
  refine ⟨t, ht, ?_⟩
  rw [← ChunkReader.chunks_whole_iff disk chunkSize (by norm_num), ← hiff]
  simp only [List.flatten_nil] at hfin hcount
  generalize (converse lengthHeader (accepts chunkSize) List.reverse
    (fun m => (honest chunkSize m).flatten) (chunks disk chunkSize) []).2 = verdict at *
  rw [Whole, hfin.stoppedWith, hfin.sent, hfin.total, hfin.verified, ChunkReader.fileSize,
    hfin.fileSize]
  cases verdict with
  | false => simp
  | true =>
    obtain ⟨hs, hb⟩ := hcount rfl
    rw [hs, hb]
    simp

/-- A file of three bytes of which nothing can be read. -/
def unreadable : Disk where
  size := 3
  size_lt := by decide
  deliver _ _ _ := []
  ioError _ := true
  length_deliver_le _ _ n := Nat.zero_le n

/-- The first read fails: the client reports success without having sent a byte. -/
theorem client_succeeds_on_nothing :
    ∃ t, Machine.Halts (next .little ⟨2, by decide, by decide⟩ (honest ⟨2, by decide, by decide⟩))
        ⟨(TCPClient.new ⟨2, by decide, by decide⟩ unreadable (.new ⟨fun n => n, 0⟩)
          (⟨[0, 0, 0, 0], rfl⟩, ⟨[0, 0, 0, 0], rfl⟩)).start, [], []⟩ t ∧
      t.client.stoppedWith = some false ∧ t.output = [] ∧ t.client.mChunksSent = 0 ∧
      t.client.mTotalChunksToSend = 2 ∧ ¬ t.Whole := by
  obtain ⟨t, ht, hout, sent, bytes, hfin, hcount⟩ :=
    transfer_ends .little ⟨2, by decide, by decide⟩ (honest ⟨2, by decide, by decide⟩) unreadable
      ⟨fun n => n, 0⟩ (⟨[0, 0, 0, 0], rfl⟩, ⟨[0, 0, 0, 0], rfl⟩) []
  have hnil : chunks unreadable ⟨2, by decide, by decide⟩ = [] :=
    ChunkReader.chunksFrom_of_nil rfl
  rw [hnil] at hout hfin hcount
  obtain ⟨rfl, rfl⟩ := hcount rfl
  have htotal : t.client.mTotalChunksToSend = 2 := hfin.total
  refine ⟨t, ht, hfin.stoppedWith, hout, hfin.sent, htotal, ?_⟩
  rw [Whole, hfin.stoppedWith, hfin.sent, htotal]
  simp [converse]

end Transfer

end ReversalBench.Tcp
