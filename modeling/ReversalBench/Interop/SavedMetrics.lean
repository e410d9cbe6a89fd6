import ReversalBench.Tcp.Verdict
import ReversalBench.GoTcp.Client

/-! What the two TCP clients save about the same run. The C++ client counts its chunks from
one and the Go client from zero, their rates differ by a factor of eight, and an answer beyond
the limit of the C++ client is a chunk for the Go client only. -/

namespace ReversalBench

/-- The rows saved by the two clients describe the run identically: the bytes, the rate and
the numbers of chunks, and for each chunk its index and round-trip time. -/
structure SameRows (c : Tcp.MetricsAggregator) (g : GoTcp.MetricsAggregator) : Prop where
  overall : ∃ row, c.overallRow = some row ∧
    row.totalBytesProcessed = g.recordOverall.totalDataProcessedBytes ∧
    row.throughputMbps = g.recordOverall.throughputMbps ∧
    row.totalChunks = g.recordOverall.chunksSent ∧
    row.verifiedChunks = g.recordOverall.chunksVerifiedOK
  rtt : c.chunkRttRows.map (fun row => (row.chunkIndex, (row.rtt : ℚ) / 1000)) = g.recordsRTT

/-- For the same bytes and the same time one program saves megabits, the other megabytes per
second. -/
theorem throughput_factor (bytes : ℕ) (seconds : ℚ) :
    Tcp.MetricsAggregator.throughputMbps bytes seconds =
      8 * GoTcp.MetricsAggregator.throughputMBps bytes seconds := by
  unfold Tcp.MetricsAggregator.throughputMbps GoTcp.MetricsAggregator.throughputMBps
  split
  · ring
  · exact (mul_zero 8).symm

/-! ### The C++ client -/

namespace Tcp

/-- What all operations of the client on its metrics keep. -/
structure MetricsAggregator.Kept (P : MetricsAggregator → Prop) : Prop where
  startTimer : ∀ m, P m → P m.startTimer
  stopTimer : ∀ m, P m → P m.stopTimer
  startChunkRttTimer : ∀ m, P m → P m.startChunkRttTimer
  stopAndRecordChunkRtt : ∀ m n v, P m → P (m.stopAndRecordChunkRtt n v)

namespace TCPClient

variable {P : MetricsAggregator → Prop} {host : ByteOrder} {chunkSize : ChunkSize}
  {s : TCPClient}

theorem metrics_stop (hP : MetricsAggregator.Kept P) (h : P s.mMetrics) (error : Bool) :
    P (s.stopClientOperations error).mMetrics := by
  unfold stopClientOperations
  split
  · dsimp only
    split
    · exact hP.stopTimer _ h
    · exact h
  · exact h

theorem metrics_sendNextChunk (hP : MetricsAggregator.Kept P) (h : P s.mMetrics) :
    P (s.sendNextChunk host).mMetrics := by
  unfold sendNextChunk
  split
  · exact h
  split
  · exact metrics_stop hP h false
  dsimp only
  split
  · apply metrics_stop hP
    exact h
  split
  · apply metrics_stop hP
    exact h
  · exact hP.startChunkRttTimer _ h

theorem metrics_handle (hP : MetricsAggregator.Kept P) (h : P s.mMetrics) :
    P (s.handleReceivedChunkData host).mMetrics := by
  unfold handleReceivedChunkData
  split
  · exact h
  dsimp only
  split
  · apply metrics_stop hP
    exact hP.stopAndRecordChunkRtt _ _ _ h
  split
  · apply metrics_stop hP
    exact hP.stopAndRecordChunkRtt _ _ _ h
  · apply metrics_sendNextChunk hP
    exact hP.stopAndRecordChunkRtt _ _ _ h

theorem metrics_onReadHeader (hP : MetricsAggregator.Kept P) (h : P s.mMetrics) (ec : ErrorCode) :
    P (s.onReadHeader host chunkSize ec).mMetrics := by
  unfold onReadHeader
  split
  · exact h
  split
  · dsimp only
    split
    · exact metrics_stop hP h true
    split
    · apply metrics_handle hP
      exact h
    · unfold doReadBody
      split
      · exact h
      · exact h
  split
  · split
    · exact metrics_stop hP h false
    · exact metrics_stop hP h true
  · exact metrics_stop hP h true

theorem metrics_onReadBody (hP : MetricsAggregator.Kept P) (h : P s.mMetrics) (ec : ErrorCode)
    (n : ℕ) : P (s.onReadBody host ec n).mMetrics := by
  unfold onReadBody
  split
  · exact h
  split
  · split
    · exact metrics_stop hP h true
    · exact metrics_handle hP h
  · exact metrics_stop hP h true

theorem metrics_onWrite (hP : MetricsAggregator.Kept P) (h : P s.mMetrics) (ec : ErrorCode) :
    P (s.onWrite ec).mMetrics := by
  unfold onWrite
  split
  · exact h
  split
  · unfold doReadHeader
    split
    · exact h
    · exact h
  · exact metrics_stop hP h true

end TCPClient

namespace Transfer

open TCPClient

variable {P : MetricsAggregator → Prop} {host : ByteOrder} {chunkSize : ChunkSize}
  {peer : List UInt8 → List (List UInt8)}

theorem metrics_next (hP : MetricsAggregator.Kept P) {c c' : Transfer}
    (h : P c.client.mMetrics) (hn : next host chunkSize peer c = some c') :
    P c'.client.mMetrics := by
  unfold next at hn
  dsimp only at hn
  split at hn
  · cases hn
  · cases hn
  · cases hn
    exact h
  · cases hn
    apply metrics_sendNextChunk hP
    exact hP.startTimer _ h
  · cases hn
    apply metrics_onWrite hP
    exact h
  · cases hn
    apply metrics_onReadHeader hP
    exact h
  · cases hn
    apply metrics_onReadBody hP
    exact h

end Transfer

namespace MetricsAggregator

/-- The chunks are numbered from one on. -/
def NumberedFromOne (m : MetricsAggregator) : Prop :=
  m.mChunkRttData.map ChunkRTTInfo.chunkIndex = List.range' 1 m.mProcessedChunksCount

theorem kept_numberedFromOne : Kept NumberedFromOne where
  startTimer m h := by
    unfold startTimer
    split
    · exact h
    · exact h
  stopTimer m h := by
    unfold stopTimer
    split
    · exact h
    · exact h
  startChunkRttTimer m h := h
  stopAndRecordChunkRtt m n v h := by
    show (m.mChunkRttData ++ [_]).map ChunkRTTInfo.chunkIndex = _
    rw [List.map_append, h, List.map_singleton]
    show _ = List.range' 1 (m.mProcessedChunksCount + 1)
    rw [List.range'_1_concat, Nat.add_comm 1]

/-- No chunk has the index zero. -/
theorem NumberedFromOne.ne_zero {m : MetricsAggregator} (h : m.NumberedFromOne) :
    ∀ row ∈ m.mChunkRttData, row.chunkIndex ≠ 0 := by
  intro row hrow
  have hmem := List.mem_map_of_mem (f := ChunkRTTInfo.chunkIndex) hrow
  rw [h, List.mem_range'_1] at hmem
  omega

/-- The timer has run since `startTime` and is stopped, and no chunk was recorded. -/
structure Unrecorded (startTime : ℤ) (m : MetricsAggregator) : Prop where
  startTime : m.mStartTime = startTime
  stopped : m.mTimerRunning = false
  bytes : m.mTotalBytesProcessed = 0
  verified : m.mVerifiedChunksCount = 0
  processed : m.mProcessedChunksCount = 0
  data : m.mChunkRttData = []

end MetricsAggregator

namespace Transfer

open TCPClient

/-- Without an answer to the first chunk, or without a chunk, nothing is recorded. -/
theorem ends_unrecorded (host : ByteOrder) (f : File) (chunkSize : ChunkSize) (clock : Clock)
    (headers : HeaderBuffer × HeaderBuffer) {input : List (List UInt8)}
    (h : f.bytes = [] ∨ lengthHeader.next (fun _ => true) input.flatten = none) :
    ∃ t, Machine.Halts (next host chunkSize fun _ => [])
        ⟨(TCPClient.new chunkSize (Disk.ofFile f) (.new clock) headers).start, input, []⟩ t ∧
      t.client.mMetrics.Unrecorded clock.now := by
  obtain ⟨s, hreach, hrun, hreader, hmetrics, hflag⟩ :=
    @start_reaches host chunkSize (fun _ => []) (Disk.ofFile f) clock headers input
  by_cases hf : f.bytes = []
  · have hcount : Blocks.count chunkSize.val (Disk.ofFile f).size ≤ 0 := by
      rw [Disk.size_ofFile, hf]
      exact (Blocks.count_zero _).le
    have hfin := @Running.sendNextChunk_done host _ _ _ _ hrun hcount
    refine ⟨_, Machine.halts_of_reaches hreach (halts_of_finished hfin _ _), ?_⟩
    show MetricsAggregator.Unrecorded _ (s.sendNextChunk host).mMetrics
    rw [hrun.sendNextChunk_stop hcount, stopClientOperations_mMetrics hrun.notStopped, hflag,
      hmetrics]
    exact ⟨rfl, rfl, rfl, rfl, rfl, rfl⟩
  · have hsize : (Disk.ofFile f).size ≠ 0 := mt List.length_eq_zero_iff.mp hf
    have hcount : 0 < Blocks.count chunkSize.val (Disk.ofFile f).size :=
      (Blocks.count_pos_iff chunkSize.pos).mpr (Nat.pos_of_ne_zero hsize)
    have hne : ChunkReader.delivered (Disk.ofFile f) chunkSize 0 ≠ [] := by
      simpa [ChunkReader.delivered, chunkSize.pos.ne'] using hf
    have hready : Ready (Disk.ofFile f) chunkSize 0 s :=
      ⟨hrun, hreader ▸ ChunkReader.at_new hsize⟩
    obtain ⟨hawait, hwrite⟩ := @Ready.sendNextChunk_chunk host _ _ _ _ hready hcount hne
    have hnone : lengthHeader.next (accepts chunkSize)
        (input.flatten ++ ([] : List (List UInt8)).flatten) = none := by
      rw [List.flatten_nil, List.append_nil]
      exact HeaderCode.next_none_of_true (h.resolve_left hf)
    obtain ⟨s', input', hlast, hfin, hlastMetrics⟩ :=
      @exchange_none host _ (fun _ => []) _ _ _ input [] hawait hwrite hnone
    refine ⟨_, Machine.halts_of_reaches (hreach.trans hlast) (halts_of_finished hfin _ _), ?_⟩
    show MetricsAggregator.Unrecorded _ s'.mMetrics
    rw [hlastMetrics, stopClientOperations_mMetrics hawait.notStopped,
      hready.sendNextChunk_eq hcount hne]
    dsimp only
    rw [hflag, hmetrics]
    exact ⟨rfl, rfl, rfl, rfl, rfl, rfl⟩

end Transfer

end Tcp

/-! ### The Go client -/

namespace GoTcp

open Tcp (lengthHeader)

/-- What all operations of the client on its metrics keep. -/
structure MetricsAggregator.Kept (P : MetricsAggregator → Prop) : Prop where
  stopTimer : ∀ m now, P m → P (m.stopTimer now)
  recordChunkRTT : ∀ m i rtt, P m → P (m.recordChunkRTT i rtt)
  recordChunkProcessed : ∀ m size, P m → P (m.recordChunkProcessed size)
  recordChunkVerified : ∀ m success, P m → P (m.recordChunkVerified success)

namespace Client

variable {σ : Type*} {host : Host σ} {P : MetricsAggregator → Prop} {c : Client σ}

theorem metrics_exchange (hP : MetricsAggregator.Kept P) (h : P c.metricsAggregator)
    (chunk : List UInt8) : P (exchange host c chunk).metricsAggregator := by
  unfold exchange
  split
  · exact h
  dsimp only
  split
  · exact hP.stopTimer _ _ h
  split
  · exact hP.stopTimer _ _ h
  next receivedData _ _ =>
    have hrecorded := fun i rtt size success => hP.recordChunkVerified _ success
      (hP.recordChunkProcessed _ size (hP.recordChunkRTT _ i rtt h))
    split
    · exact hP.stopTimer _ _ (hrecorded _ _ _ _)
    split
    · exact hP.stopTimer _ _ (hrecorded _ _ _ _)
    · exact hrecorded _ _ _ _

theorem metrics_next (hP : MetricsAggregator.Kept P) {c' : Client σ} (h : P c.metricsAggregator)
    (hn : next host c = some c') : P c'.metricsAggregator := by
  have hprocess : ∀ (c : Client σ) chunk, P c.metricsAggregator →
      P (process host c chunk).metricsAggregator := by
    intro c chunk h
    unfold process
    split
    · split
      · exact hP.stopTimer _ _ h
      split
      · exact hP.stopTimer _ _ h
      · exact metrics_exchange hP h chunk
    · exact metrics_exchange hP h chunk
  unfold next at hn
  dsimp only at hn
  split at hn
  · cases hn
  · cases hn
  split at hn
  · cases hn
    apply hprocess
    exact h
  · split at hn
    · cases hn
      exact hP.stopTimer _ _ h
    · cases hn
      apply hprocess
      exact h
  · cases hn
    exact hP.stopTimer _ _ h

end Client

/-- A chunk was recorded under the index zero. -/
def MetricsAggregator.HasZero (m : MetricsAggregator) : Prop :=
  0 ∈ m.chunkRTTs.map ChunkRTTMetric.chunkIndex

theorem MetricsAggregator.kept_hasZero : Kept HasZero where
  stopTimer m now h := by
    unfold stopTimer
    split
    · exact h
    · exact h
  recordChunkRTT m i rtt h := by
    show 0 ∈ (m.chunkRTTs ++ [_]).map ChunkRTTMetric.chunkIndex
    rw [List.map_append]
    exact List.mem_append_left _ h
  recordChunkProcessed m size h := h
  recordChunkVerified m success h := by
    cases success
    · exact h
    · exact h

namespace Client

variable {c : Client (Conn × Clock)}

/-- Any answer to the first chunk is recorded, whether or not it is the expected one. -/
theorem exchange_answered {chunk : List UInt8} (hi : c.i = 0)
    (h : lengthHeader.next (fun _ => true) c.conn.1.incoming.flatten ≠ none) :
    (exchange segmentHost c chunk).metricsAggregator.HasZero := by
  let sent : Conn × Clock :=
    ({ c.conn.1 with outgoing := c.conn.1.outgoing ++ lengthHeader.frame chunk }, c.conn.2.tick)
  have hwrite : writeMessage segmentHost.toNetConn (segmentHost.now c.conn).2 chunk =
      (none, sent) := writeMessage_segmentHost _ _
  obtain ⟨⟨answer, r⟩, hn⟩ := Option.ne_none_iff_exists'.mp h
  obtain ⟨conn, hread, -⟩ := @readMessage_frame _ segmentHost.toNetConn _
    segmentHost_delivers sent answer r hn
  have hzero : ∀ rtt, (c.metricsAggregator.recordChunkRTT c.i rtt).HasZero := by
    intro rtt
    show 0 ∈ (c.metricsAggregator.chunkRTTs ++ [_]).map ChunkRTTMetric.chunkIndex
    rw [List.map_append, hi]
    exact List.mem_append_right _ List.mem_cons_self
  have hP := MetricsAggregator.kept_hasZero
  have hrecorded := fun rtt size success => hP.recordChunkVerified _ success
    (hP.recordChunkProcessed _ size (hzero rtt))
  simp only [exchange, getReversedBytes_eq, hwrite, hread]
  split
  · exact hP.stopTimer _ _ (hrecorded _ _ _)
  split
  · exact hP.stopTimer _ _ (hrecorded _ _ _)
  · exact hrecorded _ _ _

/-- Without an answer to the chunk only the timer is stopped. -/
theorem exchange_unanswered {chunk : List UInt8}
    (h : lengthHeader.next (fun _ => true) c.conn.1.incoming.flatten = none) :
    (exchange segmentHost c chunk).status ≠ .running ∧
      ∃ now, (exchange segmentHost c chunk).metricsAggregator =
        c.metricsAggregator.stopTimer now := by
  let sent : Conn × Clock :=
    ({ c.conn.1 with outgoing := c.conn.1.outgoing ++ lengthHeader.frame chunk }, c.conn.2.tick)
  have hwrite : writeMessage segmentHost.toNetConn (segmentHost.now c.conn).2 chunk =
      (none, sent) := writeMessage_segmentHost _ _
  obtain ⟨err, conn, hread, -⟩ := @readMessage_stop _ segmentHost.toNetConn _
    segmentHost_delivers sent h
  simp only [exchange, getReversedBytes_eq, hwrite, hread]
  exact ⟨by simp [abort], _, rfl⟩

/-- The metrics of a client that has recorded no chunk before its timer was stopped. -/
theorem ends_unrecorded (f : File) (chunkSize : ChunkSize) (clock : Clock)
    {incoming : List (List UInt8)}
    (h : f.bytes = [] ∨ lengthHeader.next (fun _ => true) incoming.flatten = none) :
    ∃ t startTime now, Machine.Halts (next segmentHost)
        (start segmentHost (Disk.ofFile f) chunkSize (⟨incoming, []⟩, clock)) t ∧
      t.metricsAggregator = (MetricsAggregator.new.startTimer startTime).stopTimer now := by
  let s := start segmentHost (Disk.ofFile f) chunkSize (⟨incoming, []⟩, clock)
  have hreader : s.chunkReader.At f chunkSize 0 := ChunkReader.at_new f chunkSize
  by_cases hf : f.bytes = []
  · obtain ⟨cr, hnext⟩ := @next_nil f chunkSize _ segmentHost s rfl hreader hf
    exact ⟨_, _, _, Machine.halts_of_step hnext (halts_of_status (by simp [leave])), rfl⟩
  · have hpos : 0 < (Blocks.blocks chunkSize.val f.bytes).length := by
      rw [Blocks.length_blocks, Blocks.count_pos_iff chunkSize.pos]
      exact List.length_pos_of_ne_nil hf
    obtain ⟨cr, hnext, -⟩ := next_block segmentHost (c := s) rfl hreader hpos
    obtain ⟨hended, now, hmetrics⟩ := @exchange_unanswered { s with chunkReader := cr }
      (Blocks.blocks chunkSize.val f.bytes)[0] (h.resolve_left hf)
    exact ⟨_, _, now, Machine.halts_of_step hnext (halts_of_status hended), hmetrics⟩

/-- An answer to the first chunk is recorded. -/
theorem hasZero_of_halts {f : File} {chunkSize : ChunkSize} {clock : Clock}
    {incoming : List (List UInt8)} {t : Client (Conn × Clock)} (hf : f.bytes ≠ [])
    (h : lengthHeader.next (fun _ => true) incoming.flatten ≠ none)
    (ht : Machine.Halts (next segmentHost)
      (start segmentHost (Disk.ofFile f) chunkSize (⟨incoming, []⟩, clock)) t) :
    t.metricsAggregator.HasZero := by
  let s := start segmentHost (Disk.ofFile f) chunkSize (⟨incoming, []⟩, clock)
  have hreader : s.chunkReader.At f chunkSize 0 := ChunkReader.at_new f chunkSize
  have hpos : 0 < (Blocks.blocks chunkSize.val f.bytes).length := by
    rw [Blocks.length_blocks, Blocks.count_pos_iff chunkSize.pos]
    exact List.length_pos_of_ne_nil hf
  obtain ⟨cr, hnext, -⟩ := next_block segmentHost (c := s) rfl hreader hpos
  have hzero := @exchange_answered { s with chunkReader := cr }
    (Blocks.blocks chunkSize.val f.bytes)[0] rfl h
  refine Machine.invariant_reaches (P := fun c => c.metricsAggregator.HasZero) ?_ hzero
    (ht.of_next hnext).1
  intro c c' hc hstep
  exact metrics_next MetricsAggregator.kept_hasZero hc hstep

end Client

end GoTcp

/-! ### Both clients -/

/-- No bytes are no bytes per second in either unit. -/
theorem throughput_zero (cpp go : ℚ) : Tcp.MetricsAggregator.throughputMbps 0 cpp =
    GoTcp.MetricsAggregator.throughputMBps 0 go := by
  simp [Tcp.MetricsAggregator.throughputMbps, GoTcp.MetricsAggregator.throughputMBps]

theorem not_sameRows {c : Tcp.MetricsAggregator} {g : GoTcp.MetricsAggregator}
    (hc : c.NumberedFromOne) (hg : g.HasZero) : ¬ SameRows c g := by
  intro h
  obtain ⟨metric, hmetric, hzero⟩ := List.mem_map.mp hg
  have hmem : (metric.chunkIndex, ((metric.rtt.tdiv 1000 : ℤ) : ℚ) / 1000) ∈ g.recordsRTT :=
    List.mem_map_of_mem hmetric
  rw [← h.rtt, hzero] at hmem
  obtain ⟨row, hrow, heq⟩ := List.mem_map.mp hmem
  exact hc.ne_zero row hrow (congrArg Prod.fst heq)

/-- Where nothing was recorded only the row itself can be missing. -/
theorem sameRows_iff_of_unrecorded {c : Tcp.MetricsAggregator} {startTime goStart now : ℤ}
    (hc : c.Unrecorded startTime) :
    SameRows c ((GoTcp.MetricsAggregator.new.startTimer goStart).stopTimer now) ↔
      startTime ≠ 0 := by
  constructor
  · rintro ⟨⟨row, hrow, -⟩, -⟩ h0
    simp [Tcp.MetricsAggregator.overallRow, hc.startTime, h0] at hrow
  · intro h0
    have hwritten : !c.mTimerRunning ∧ c.mStartTime ≠ 0 := by
      rw [hc.stopped, hc.startTime]
      exact ⟨rfl, h0⟩
    refine ⟨⟨_, if_pos hwritten, hc.bytes, ?_, hc.processed, hc.verified⟩, ?_⟩
    · rw [hc.bytes]
      exact throughput_zero _ _
    · rw [Tcp.MetricsAggregator.chunkRttRows, hc.data]
      rfl

/-- Where the first chunk is answered, whatever the answer, the rows differ. -/
theorem exists_not_sameRows (host : ByteOrder) {f : File} (chunkSize : ChunkSize) (time : ℕ → ℤ)
    (headers : Tcp.HeaderBuffer × Tcp.HeaderBuffer) {cppInput goInput : List (List UInt8)}
    (hf : f.bytes ≠ []) (hn : Tcp.lengthHeader.next (fun _ => true) goInput.flatten ≠ none) :
    ∃ c g, Machine.Halts (Tcp.Transfer.next host chunkSize fun _ => [])
        ⟨(Tcp.TCPClient.new chunkSize (Disk.ofFile f) (.new ⟨time, 2⟩) headers).start,
          cppInput, []⟩ c ∧
      Machine.Halts (GoTcp.Client.next GoTcp.segmentHost)
        (.start GoTcp.segmentHost (Disk.ofFile f) chunkSize (⟨goInput, []⟩, ⟨time, 0⟩)) g ∧
      ¬ SameRows c.client.mMetrics g.metricsAggregator := by
  obtain ⟨c, hc, -⟩ := Tcp.Transfer.transfer_ends host chunkSize (fun _ => []) (Disk.ofFile f)
    ⟨time, 2⟩ headers cppInput
  obtain ⟨g, hg, -⟩ := GoTcp.Client.client_ends f chunkSize goInput ⟨time, 0⟩
  refine ⟨c, g, hc, hg, not_sameRows ?_ (GoTcp.Client.hasZero_of_halts hf hn hg)⟩
  refine Machine.invariant_reaches (P := fun c => c.client.mMetrics.NumberedFromOne) ?_ rfl hc.1
  intro c c' hnum hstep
  exact Tcp.Transfer.metrics_next Tcp.MetricsAggregator.kept_numberedFromOne hnum hstep

/-- The rows saved after a transfer are the same, for the same answers of the server and the
same readings of the clock, if and only if no chunk is recorded at all (and the clock was not
read as zero, which the C++ client takes for a timer that was never started). The Go client
reads its clock twice before that for the deadlines. -/
theorem sameRows_iff (host : ByteOrder) (f : File) (chunkSize : ChunkSize) (time : ℕ → ℤ)
    (headers : Tcp.HeaderBuffer × Tcp.HeaderBuffer) {cppInput goInput : List (List UInt8)}
    (hsame : cppInput.flatten = goInput.flatten) :
    ∃ c g, Machine.Halts (Tcp.Transfer.next host chunkSize fun _ => [])
        ⟨(Tcp.TCPClient.new chunkSize (Disk.ofFile f) (.new ⟨time, 2⟩) headers).start,
          cppInput, []⟩ c ∧
      Machine.Halts (GoTcp.Client.next GoTcp.segmentHost)
        (.start GoTcp.segmentHost (Disk.ofFile f) chunkSize (⟨goInput, []⟩, ⟨time, 0⟩)) g ∧
      (SameRows c.client.mMetrics g.metricsAggregator ↔
        time 2 ≠ 0 ∧ (f.bytes = [] ∨
          Tcp.lengthHeader.next (fun _ => true) cppInput.flatten = none)) := by
  by_cases h : f.bytes = [] ∨ Tcp.lengthHeader.next (fun _ => true) cppInput.flatten = none
  · obtain ⟨c, hc, hcpp⟩ := Tcp.Transfer.ends_unrecorded host f chunkSize ⟨time, 2⟩ headers h
    obtain ⟨g, start, now, hg, hgo⟩ :=
      GoTcp.Client.ends_unrecorded f chunkSize ⟨time, 0⟩ (hsame ▸ h)
    refine ⟨c, g, hc, hg, ?_⟩
    rw [hgo, sameRows_iff_of_unrecorded hcpp]
    exact (and_iff_left h).symm
  · obtain ⟨hf, hn⟩ := not_or.mp h
    obtain ⟨c, g, hc, hg, hnot⟩ := @exists_not_sameRows host f chunkSize time headers cppInput
      goInput hf (hsame ▸ hn)
    exact ⟨c, g, hc, hg, iff_of_false hnot fun hiff => h hiff.2⟩

/-- Two chunks, both answered correctly: the rows differ. If the answers stop within the first
header, they are the same. -/
theorem sameRows_iff_two :
    (∃ c g, Machine.Halts (Tcp.Transfer.next .big ⟨2, by decide, by decide⟩ fun _ => [])
        ⟨(Tcp.TCPClient.new ⟨2, by decide, by decide⟩ (Disk.ofFile ⟨[1, 2, 3], by decide⟩)
          (.new ⟨fun n => n, 2⟩) (⟨[0, 0, 0, 0], rfl⟩, ⟨[0, 0, 0, 0], rfl⟩)).start,
          [[0, 0, 0, 2, 2], [1, 0, 0, 0, 1, 3]], []⟩ c ∧
      Machine.Halts (GoTcp.Client.next GoTcp.segmentHost)
        (.start GoTcp.segmentHost (Disk.ofFile ⟨[1, 2, 3], by decide⟩) ⟨2, by decide, by decide⟩
          (⟨[[0, 0, 0, 2, 2, 1], [0, 0, 0, 1, 3]], []⟩, ⟨fun n => n, 0⟩)) g ∧
      ¬ SameRows c.client.mMetrics g.metricsAggregator) ∧
    ∃ c g, Machine.Halts (Tcp.Transfer.next .big ⟨2, by decide, by decide⟩ fun _ => [])
        ⟨(Tcp.TCPClient.new ⟨2, by decide, by decide⟩ (Disk.ofFile ⟨[1, 2, 3], by decide⟩)
          (.new ⟨fun n => n, 2⟩) (⟨[0, 0, 0, 0], rfl⟩, ⟨[0, 0, 0, 0], rfl⟩)).start,
          [[0, 0, 0]], []⟩ c ∧
      Machine.Halts (GoTcp.Client.next GoTcp.segmentHost)
        (.start GoTcp.segmentHost (Disk.ofFile ⟨[1, 2, 3], by decide⟩) ⟨2, by decide, by decide⟩
          (⟨[[0, 0], [0]], []⟩, ⟨fun n => n, 0⟩)) g ∧
      SameRows c.client.mMetrics g.metricsAggregator := by
  have htwo : [[0, 0, 0, 2, 2], [1, 0, 0, 0, 1, 3]].flatten =
      [[0, 0, 0, 2, 2, 1], [0, 0, 0, 1, (3 : UInt8)]].flatten := by decide
  have hnone : [[0, 0, 0]].flatten = [[0, 0], [(0 : UInt8)]].flatten := by decide
  obtain ⟨c, g, hc, hg, hiff⟩ := sameRows_iff .big ⟨[1, 2, 3], by decide⟩
    ⟨2, by decide, by decide⟩ (fun n => n) (⟨[0, 0, 0, 0], rfl⟩, ⟨[0, 0, 0, 0], rfl⟩) htwo
  obtain ⟨c', g', hc', hg', hiff'⟩ := sameRows_iff .big ⟨[1, 2, 3], by decide⟩
    ⟨2, by decide, by decide⟩ (fun n => n) (⟨[0, 0, 0, 0], rfl⟩, ⟨[0, 0, 0, 0], rfl⟩) hnone
  refine ⟨⟨c, g, hc, hg, fun hsame => ?_⟩, c', g', hc', hg', hiff'.mpr ⟨by decide, .inr ?_⟩⟩
  · rcases (hiff.mp hsame).2 with hempty | hstop
    · exact absurd hempty (by decide)
    · exact absurd hstop (by decide)
  · decide

/-- The same transfer: its chunks have the indices one and two in one file, zero and one in the
other. -/
theorem not_sameRows_two :
    ∃ c g, Machine.Halts (Tcp.Transfer.next .big ⟨2, by decide, by decide⟩ fun _ => [])
        ⟨(Tcp.TCPClient.new ⟨2, by decide, by decide⟩ (Disk.ofFile ⟨[1, 2, 3], by decide⟩)
          (.new ⟨fun n => n, 2⟩) (⟨[0, 0, 0, 0], rfl⟩, ⟨[0, 0, 0, 0], rfl⟩)).start,
          [[0, 0, 0, 2, 2, 1], [0, 0, 0, 1, 3]], []⟩ c ∧
      Machine.Halts (GoTcp.Client.next GoTcp.segmentHost)
        (.start GoTcp.segmentHost (Disk.ofFile ⟨[1, 2, 3], by decide⟩) ⟨2, by decide, by decide⟩
          (⟨[[0, 0, 0, 2, 2, 1], [0, 0, 0, 1, 3]], []⟩, ⟨fun n => n, 0⟩)) g ∧
      ¬ SameRows c.client.mMetrics g.metricsAggregator :=
  @exists_not_sameRows .big ⟨[1, 2, 3], by decide⟩ ⟨2, by decide, by decide⟩ (fun n => n)
    (⟨[0, 0, 0, 0], rfl⟩, ⟨[0, 0, 0, 0], rfl⟩) _ _ (by decide) (by decide)

end ReversalBench
