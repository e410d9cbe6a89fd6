import ReversalBench.Tcp.Counters

/-! How the C++ TCP client (`tcp_client.cpp`) comes to its end, for all outcomes of its
operations and all reads of its file. Each handler starts one more operation or calls
`stop_client_operations`, with `true` exactly if something failed. So `io_context::run`
returns after a bounded number of handlers, and not before the client was stopped. -/

namespace ReversalBench.Tcp

open ChunkReader (delivered)

/-- The steps of `main` from an operation on: three for each chunk that is left, and those
that resolve, connect and return. -/
def ClientOperation.work (chunksLeft : ℕ) : ClientOperation → ℕ
  | .resolve => 3 * chunksLeft + 3
  | .connect => 3 * chunksLeft + 2
  | .write _ => 3 * chunksLeft + 1
  | .readHeader => 3 * chunksLeft
  | .readBody => 3 * chunksLeft - 1

namespace TCPClient

/-- The steps of `main` that are left. -/
def work (s : TCPClient) : ℕ :=
  match s.ioContextStopped, s.pending with
  | false, some op => op.work (s.mTotalChunksToSend - s.mChunksSent)
  | _, _ => 1

/-- `stop_client_operations` has had no effect so far. -/
structure Live (s : TCPClient) : Prop where
  notStopped : s.mOperationsStopped = false
  ioRuns : s.ioContextStopped = false
  timer : s.mTimerStoppedFlag = false
  stoppedWith : s.stoppedWith = none

/-- `stop_client_operations` has had its effect. -/
structure Closed (error : Bool) (s : TCPClient) : Prop where
  operations : s.mOperationsStopped = true
  ioStopped : s.ioContextStopped = true
  socket : s.mSocketOpen = false
  timer : s.mMetrics.mTimerRunning = false
  stoppedWith : s.stoppedWith = some error

/-- What a handler can do: start an operation, with less work left than before, or stop. -/
inductive Outcome (before : ℕ) (fails : Prop) : TCPClient → Prop where
  | continues {s : TCPClient} (live : s.Live) (work : s.work < before) (not_fails : ¬fails) :
    Outcome before fails s
  | stops {s : TCPClient} {error : Bool} (closed : s.Closed error) (left : 1 < before)
    (fails_iff : error = true ↔ fails) : Outcome before fails s

variable {host : ByteOrder} {chunkSize : ChunkSize} {disk : Disk} {k before : ℕ} {s : TCPClient}
  {fails : Prop}

theorem stopTimer_mTimerRunning (m : MetricsAggregator) : m.stopTimer.mTimerRunning = false := by
  unfold MetricsAggregator.stopTimer
  split
  · rfl
  next hrunning => exact Bool.eq_false_iff.mpr hrunning

theorem Live.closed (h : s.Live) (error : Bool) : (s.stopClientOperations error).Closed error := by
  rw [stopClientOperations_eq h.notStopped]
  refine ⟨rfl, rfl, rfl, ?_, rfl⟩
  simp only [h.timer, Bool.not_false, if_true, stopTimer_mTimerRunning]

theorem Closed.work_eq {error : Bool} (h : s.Closed error) : s.work = 1 := by
  rw [work, h.ioStopped]

/-- Neither the buffers nor the metrics nor the pending operation matter. -/
theorem Live.of_eq {t : TCPClient} (h : s.Live)
    (hops : t.mOperationsStopped = s.mOperationsStopped)
    (hio : t.ioContextStopped = s.ioContextStopped)
    (htimer : t.mTimerStoppedFlag = s.mTimerStoppedFlag)
    (hwith : t.stoppedWith = s.stoppedWith) : t.Live :=
  ⟨hops.trans h.notStopped, hio.trans h.ioRuns, htimer.trans h.timer, hwith.trans h.stoppedWith⟩

theorem Live.work_eq (h : s.Live) {op : ClientOperation} (hp : s.pending = some op) :
    s.work = op.work (s.mTotalChunksToSend - s.mChunksSent) := by
  rw [work, h.ioRuns, hp]

theorem outcome_stop (s : TCPClient) (h : s.Live) (error : Bool) (hleft : 1 < before)
    (hiff : error = true ↔ fails) : Outcome before fails (s.stopClientOperations error) :=
  .stops (h.closed error) hleft hiff

/-- Between two chunks the next one is written, or the client is done. -/
theorem Ready.outcome_sendNextChunk (h : Ready disk chunkSize k s) (hlive : s.Live)
    (hfails : ¬fails) (hbound : 3 * (Blocks.count chunkSize.val disk.size - k) + 1 < before) :
    Outcome before fails (s.sendNextChunk host) := by
  have hstop : (false = true ↔ fails) := by simp [hfails]
  rcases Nat.lt_or_ge k (Blocks.count chunkSize.val disk.size) with hk | hk
  · by_cases hempty : delivered disk chunkSize k = []
    · rw [h.sendNextChunk_empty_eq hk hempty]
      exact outcome_stop { s with
          mCurrentChunkData := []
          mChunkReader := s.mChunkReader.readNextChunk.2 }
        (hlive.of_eq rfl rfl rfl rfl) false (by omega) hstop
    · rw [h.sendNextChunk_eq hk hempty]
      have hnext : Live { s with
          mCurrentChunkData := delivered disk chunkSize k
          mChunkReader := s.mChunkReader.readNextChunk.2
          mExpectedReversedChunk := (delivered disk chunkSize k).reverse
          mMetrics := s.mMetrics.startChunkRttTimer
          mWriteHeaderBuffer := (prepareMessage host (delivered disk chunkSize k)).1
          pending := some (.write (prepareMessage host (delivered disk chunkSize k)).2) } :=
        hlive.of_eq rfl rfl rfl rfl
      refine .continues hnext ?_ hfails
      rw [hnext.work_eq rfl]
      show 3 * (s.mTotalChunksToSend - s.mChunksSent) + 1 < before
      rwa [h.total, h.sent]
  · rw [h.toRunning.sendNextChunk_stop hk]
    exact outcome_stop s hlive false (by omega) hstop

/-- The answer that was expected. -/
theorem Awaiting.outcome_right (h : Awaiting disk chunkSize k s) (hlive : s.Live)
    (hfails : ¬fails) (hbound : 3 * (Blocks.count chunkSize.val disk.size - k) - 1 ≤ before)
    (hbody : s.mReadBodyBuffer = (delivered disk chunkSize k).reverse) :
    Outcome before fails (s.handleReceivedChunkData host) := by
  have hmore := h.more
  have hnext : s.verifiedNext.Live := hlive.of_eq rfl rfl rfl rfl
  by_cases hlast : k + 1 ≥ Blocks.count chunkSize.val disk.size ∨
      (delivered disk chunkSize k).length < chunkSize.val
  · rw [h.handle_right hbody, if_pos hlast]
    exact outcome_stop _ hnext false (by omega) (by simp [hfails])
  · obtain ⟨hk, hfull⟩ := not_or.mp hlast
    have hle := ChunkReader.length_delivered_le disk chunkSize k
    obtain ⟨hready, hhandle⟩ :=
      @Awaiting.handle_more host _ _ _ _ h hbody (by omega) (by omega)
    rw [hhandle]
    exact hready.outcome_sendNextChunk hnext hfails (by omega)

theorem Awaiting.outcome_wrong (h : Awaiting disk chunkSize k s) (hlive : s.Live) (hfails : fails)
    (hbound : 1 < before) (hbody : s.mReadBodyBuffer ≠ (delivered disk chunkSize k).reverse) :
    Outcome before fails (s.handleReceivedChunkData host) := by
  rw [h.handle_wrong_eq hbody]
  exact outcome_stop { s with
      mMetrics := s.mMetrics.stopAndRecordChunkRtt (delivered disk chunkSize k).length false }
    (hlive.of_eq rfl rfl rfl rfl) true hbound (by simp [hfails])

/-- The exchange fails without an answer. -/
theorem Awaiting.outcome_fail (_ : Awaiting disk chunkSize k s) (hlive : s.Live) (hfails : fails)
    (hleft : 1 < before) : Outcome before fails (s.stopClientOperations true) :=
  outcome_stop s hlive true hleft (by simp [hfails])

theorem Running.outcome_connected (h : Running disk chunkSize 0 s) (hlive : s.Live)
    (hreader : s.mChunkReader = .new disk chunkSize) (hfails : ¬fails)
    (hbound : 3 * Blocks.count chunkSize.val disk.size + 2 ≤ before) :
    Outcome before fails (s.onConnect host .success) := by
  have hrun : Running disk chunkSize 0 { s with mMetrics := s.mMetrics.startTimer } :=
    ⟨h.notStopped, h.ioRuns, h.sent, h.total, h.fileSize,
      (MetricsAggregator.verifiedBytes_startTimer _).trans h.verified⟩
  have hnext : Live { s with mMetrics := s.mMetrics.startTimer } := hlive.of_eq rfl rfl rfl rfl
  rw [onConnect, if_pos rfl]
  by_cases hsize : disk.size = 0
  · rw [hrun.sendNextChunk_stop (by rw [hsize, Blocks.count_zero])]
    exact outcome_stop _ hnext false (by omega) (by simp [hfails])
  · have hready : Ready disk chunkSize 0 { s with mMetrics := s.mMetrics.startTimer } :=
      ⟨hrun, hreader ▸ ChunkReader.at_new hsize⟩
    exact hready.outcome_sendNextChunk hnext hfails (by omega)

end TCPClient

namespace Program

open TCPClient (Stage Running Awaiting Live Closed Outcome outcome_stop)

variable {host : ByteOrder} {chunkSize : ChunkSize} {disk : Disk} {k : ℕ} {c t : Program}
  {e : Event}

theorem outcome_starting (hrun : Running disk chunkSize 0 c.client) (hlive : c.client.Live)
    (hreader : c.client.mChunkReader = .new disk chunkSize)
    (hpending : c.client.pending = some .resolve ∨ c.client.pending = some .connect)
    (ht : c.handle host chunkSize e = some t) :
    Outcome c.client.work (c.Fails host chunkSize e) t.client := by
  have hleft : c.client.mTotalChunksToSend - c.client.mChunksSent =
      Blocks.count chunkSize.val disk.size := by rw [hrun.total, hrun.sent, Nat.sub_zero]
  have hnone : Live { c.client with pending := none } := hlive.of_eq rfl rfl rfl rfl
  rcases hpending with hp | hp
  · have hwork := hlive.work_eq hp
    rw [hleft] at hwork
    cases e with
    | resolved ec =>
      simp only [handle, hp, Option.some.injEq] at ht
      subst ht
      by_cases hec : ec = .success
      · rw [TCPClient.onResolve, if_pos hec]
        have hnext : Live ({ c.client with pending := none } : TCPClient).doConnect :=
          hlive.of_eq rfl rfl rfl rfl
        refine .continues hnext ?_ (not_not.mpr hec)
        rw [hnext.work_eq rfl, hwork]
        show 3 * (c.client.mTotalChunksToSend - c.client.mChunksSent) + 2 < 3 * _ + 3
        omega
      · rw [TCPClient.onResolve, if_neg hec]
        exact outcome_stop _ hnone true (hwork ▸ by simp [ClientOperation.work])
          (by simp [Fails, hec])
    | _ => simp [handle, hp] at ht
  · have hwork := hlive.work_eq hp
    rw [hleft] at hwork
    cases e with
    | connected ec =>
      simp only [handle, hp, Option.some.injEq] at ht
      subst ht
      by_cases hec : ec = .success
      · subst hec
        exact (hrun.update none c.client.mSocketOpen).outcome_connected hnone hreader
          (not_not.mpr rfl) hwork.ge
      · rw [TCPClient.onConnect, if_neg hec]
        exact outcome_stop _ hnone true (hwork ▸ by simp [ClientOperation.work])
          (by simp [Fails, hec])
    | _ => simp [handle, hp] at ht

section Exchange

variable (hawait : Awaiting disk chunkSize k c.client) (hlive : c.client.Live)

include hawait hlive

theorem work_exchange {op : ClientOperation} (hp : c.client.pending = some op) :
    c.client.work = op.work (Blocks.count chunkSize.val disk.size - k) := by
  rw [hlive.work_eq hp, hawait.total, hawait.sent]

theorem outcome_written {buffers : List (List UInt8)}
    (hp : c.client.pending = some (.write buffers)) (ht : c.handle host chunkSize e = some t) :
    Outcome c.client.work (c.Fails host chunkSize e) t.client := by
  have hwork := work_exchange hawait hlive hp
  have hmore := hawait.more
  simp only [ClientOperation.work] at hwork
  cases e with
  | written ec =>
    simp only [handle, hp, Option.some.injEq] at ht
    subst ht
    have hnone := hawait.update none c.client.mReadHeaderBuffer c.client.mReadBodyBuffer
    by_cases hec : ec = .success
    · subst hec
      rw [hnone.onWrite_success]
      have hnext : Live { c.client with pending := some .readHeader } :=
        hlive.of_eq rfl rfl rfl rfl
      refine .continues hnext ?_ (not_not.mpr rfl)
      rw [hnext.work_eq rfl]
      show 3 * (c.client.mTotalChunksToSend - c.client.mChunksSent) < _
      rw [hawait.total, hawait.sent]
      omega
    · rw [hnone.onWrite_error hec]
      exact hnone.outcome_fail (hlive.of_eq rfl rfl rfl rfl) hec (by omega)
  | _ => simp [handle, hp] at ht

theorem outcome_headerRead (hp : c.client.pending = some .readHeader)
    (ht : c.handle host chunkSize e = some t) :
    Outcome c.client.work (c.Fails host chunkSize e) t.client := by
  have hwork := work_exchange hawait hlive hp
  have hmore := hawait.more
  simp only [ClientOperation.work] at hwork
  cases e with
  | headerRead ec buffer =>
    simp only [handle, hp, Option.some.injEq] at ht
    subst ht
    have hnone := hawait.update none buffer c.client.mReadBodyBuffer
    by_cases hec : ec = .success
    · subst hec
      by_cases hlong : (parseHeader host buffer).toNat > chunkSize.val * 2
      · rw [@Awaiting.onReadHeader_long host _ _ _ _ hnone hlong]
        exact hnone.outcome_fail (hlive.of_eq rfl rfl rfl rfl) (.inr (.inl hlong)) (by omega)
      by_cases hzero : (parseHeader host buffer).toNat = 0
      · rw [@Awaiting.onReadHeader_empty host _ _ _ _ hnone hzero]
        have hempty := hawait.update none buffer []
        by_cases hbody : [] = (delivered disk chunkSize k).reverse
        · have hexpected : c.client.mExpectedReversedChunk = [] :=
            hawait.expected.trans hbody.symm
          exact hempty.outcome_right (hlive.of_eq rfl rfl rfl rfl)
            (by simp [Fails, hzero, hexpected]) (by omega) hbody
        · have hexpected : c.client.mExpectedReversedChunk ≠ [] := by
            rw [hawait.expected]
            exact Ne.symm hbody
          exact hempty.outcome_wrong (hlive.of_eq rfl rfl rfl rfl)
            (.inr (.inr ⟨hzero, hexpected⟩)) (by omega) hbody
      · rw [@Awaiting.onReadHeader_body host _ _ _ _ hnone hlong hzero]
        have hnext : Live { c.client with
            mReadHeaderBuffer := buffer
            mReadBodyBuffer :=
              resize c.client.mReadBodyBuffer (parseHeader host buffer).toNat
            pending := some .readBody } := hlive.of_eq rfl rfl rfl rfl
        refine .continues hnext ?_ (by simp [Fails, hlong, hzero])
        rw [hnext.work_eq rfl]
        show 3 * (c.client.mTotalChunksToSend - c.client.mChunksSent) - 1 < _
        rw [hawait.total, hawait.sent]
        omega
    · rw [hnone.onReadHeader_error hec]
      exact hnone.outcome_fail (hlive.of_eq rfl rfl rfl rfl) (.inl hec) (by omega)
  | _ => simp [handle, hp] at ht

theorem outcome_bodyRead (hp : c.client.pending = some .readBody)
    (ht : c.handle host chunkSize e = some t) :
    Outcome c.client.work (c.Fails host chunkSize e) t.client := by
  have hwork := work_exchange hawait hlive hp
  have hmore := hawait.more
  simp only [ClientOperation.work] at hwork
  cases e with
  | bodyRead ec lengthRead buffer =>
    simp only [handle, hp] at ht
    split at ht <;> cases ht
    have hnone := hawait.update none c.client.mReadHeaderBuffer buffer
    by_cases hbad : ec ≠ .success ∨ lengthRead ≠ buffer.length
    · have hfails : c.Fails host chunkSize (.bodyRead ec lengthRead buffer) := hbad.imp_right .inl
      rw [@Awaiting.onReadBody_error host _ _ _ _ hnone _ _ hbad]
      exact hnone.outcome_fail (hlive.of_eq rfl rfl rfl rfl) hfails (by omega)
    · simp only [ne_eq, not_or, not_not] at hbad
      obtain ⟨rfl, rfl⟩ := hbad
      rw [@Awaiting.onReadBody_full host _ _ _ _ hnone]
      by_cases hbody : buffer = (delivered disk chunkSize k).reverse
      · have hexpected : buffer = c.client.mExpectedReversedChunk :=
          hbody.trans hawait.expected.symm
        exact hnone.outcome_right (hlive.of_eq rfl rfl rfl rfl)
          (by simp [Fails, ← hexpected]) (by omega) hbody
      · have hexpected : buffer ≠ c.client.mExpectedReversedChunk := by
          rw [hawait.expected]
          exact hbody
        exact hnone.outcome_wrong (hlive.of_eq rfl rfl rfl rfl) (.inr (.inr hexpected)) (by omega)
          hbody
  | _ => simp [handle, hp] at ht

end Exchange

theorem outcome_handle {failed refuted : Prop} (h : Stage disk chunkSize failed refuted c.client)
    (hlive : c.client.Live) (ht : c.handle host chunkSize e = some t) :
    Outcome c.client.work (c.Fails host chunkSize e) t.client := by
  cases h with
  | starting hrun hreader hpending => exact outcome_starting hrun hlive hreader hpending ht
  | outstanding k hawait hchunk =>
    cases hp : c.client.pending with
    | none => exact absurd hchunk (TCPClient.not_outstanding_of_none hp)
    | some op =>
      cases op with
      | write buffers => exact outcome_written hawait hlive hp ht
      | readHeader => exact outcome_headerRead hawait hlive hp ht
      | readBody => exact outcome_bodyRead hawait hlive hp ht
      | _ => simp [TCPClient.Outstanding, ClientOperation.exchanges, hp] at hchunk
  | stopped hops =>
    rw [hlive.notStopped] at hops
    cases hops

/-! ### Whole runs -/

/-- The steps that are left. -/
def work (c : Program) : ℕ :=
  match c.pc with
  | .running => c.client.work
  | .exited _ => 0

/-- The client is still at work and nothing has `failed`, or it was stopped with what had. -/
inductive Ending (failed : Prop) (c : Program) : Prop where
  | live (client : c.client.Live) (not_failed : ¬failed) (not_returned : c.pc ≠ .exited 0)
  | closed (error : Bool) (client : c.client.Closed error) (failed_iff : error = true ↔ failed)

theorem work_running (h : c.pc = .running) : c.work = c.client.work := by rw [work, h]

/-- Something is left to do as long as `main` runs. -/
theorem work_pos {failed refuted : Prop} (h : Stage disk chunkSize failed refuted c.client) :
    0 < c.client.work := by
  cases h with
  | starting hrun hreader hpending =>
    rw [TCPClient.work, hrun.ioRuns]
    rcases hpending with hp | hp <;> simp [hp, ClientOperation.work]
  | outstanding k hawait hchunk =>
    have hmore := hawait.more
    rw [TCPClient.work, hawait.ioRuns, hawait.total, hawait.sent]
    cases hp : c.client.pending with
    | none => exact Nat.zero_lt_one
    | some op => cases op <;> simp only [ClientOperation.work] <;> omega
  | stopped _ hcontext =>
    rw [TCPClient.work, hcontext]
    exact Nat.zero_lt_one

/-- An operation is under way until the client is stopped. -/
theorem ready_returns {failed refuted : Prop} (h : Stage disk chunkSize failed refuted c.client)
    (hdone : c.client.ioContextStopped ∨ c.client.pending = none) :
    c.client.ioContextStopped = true := by
  rcases hdone with hio | hnone
  · exact hio
  · cases h with
    | starting hrun hreader hpending =>
      rw [hnone] at hpending
      rcases hpending with hp | hp <;> cases hp
    | outstanding k hawait hchunk => exact absurd hchunk (TCPClient.not_outstanding_of_none hnone)
    | stopped _ hcontext => exact hcontext

/-- The end of `main` leaves the client as it is. -/
theorem Ending.exited {failed : Prop} (h : Ending failed c) {status : ℕ}
    (hstatus : status = 0 → c.client.ioContextStopped = true) :
    Ending failed { c with pc := .exited status } := by
  cases h with
  | live hlive hfailed =>
    refine .live hlive hfailed fun hpc => ?_
    rw [hlive.ioRuns] at hstatus
    injection hpc with hzero
    cases hstatus hzero
  | closed error hclosed hiff => exact .closed error hclosed hiff

theorem Ending.congr {failed failed' : Prop} (h : Ending failed c) (hiff : failed ↔ failed') :
    Ending failed' c := (propext hiff) ▸ h

/-- Each step uses up work, and only a stopped client returns. -/
theorem ending_step {failed failed' refuted : Prop} (h : Ending failed c)
    (hstage : Stage disk chunkSize failed' refuted c.client)
    (ht : c.step host chunkSize e = some t) :
    Ending (failed ∨ c.Fails host chunkSize e) t ∧ t.work < c.work := by
  cases hpc : c.pc with
  | exited status => simp [step, hpc] at ht
  | running =>
    have hpos := work_pos hstage
    rw [work_running hpc]
    cases e with
    | throws =>
      simp only [step, hpc, Option.some.injEq] at ht
      subst ht
      have hone : (1 : ℕ) = 0 → c.client.ioContextStopped = true := fun h => absurd h one_ne_zero
      exact ⟨(h.exited hone).congr (by simp [Fails]), hpos⟩
    | returns =>
      simp only [step, hpc] at ht
      split at ht
      next hdone =>
        cases ht
        exact ⟨(h.exited fun _ => ready_returns hstage hdone).congr (by simp [Fails]), hpos⟩
      · cases ht
    | _ =>
      simp only [step, hpc] at ht
      split at ht
      · cases ht
      next hio =>
        cases h with
        | closed error hclosed => exact absurd hclosed.ioStopped hio
        | live hlive hfailed =>
          have hrunning := (handle_pc ht).trans hpc
          have houtcome := outcome_handle hstage hlive ht
          rw [work_running hrunning]
          cases houtcome with
          | continues hnext hwork hfails =>
            exact ⟨.live hnext (not_or.mpr ⟨hfailed, hfails⟩) (by simp [hrunning]), hwork⟩
          | stops hclosed hleft hiff =>
            exact ⟨.closed _ hclosed (by simp [hiff, hfailed]), hclosed.work_eq ▸ hleft⟩

open Machine (run run_induction Sometime sometime_concat)

variable {prepared : Bool} {totalFileSize : ℕ} {clock : Clock}
  {headers : HeaderBuffer × HeaderBuffer} {es : List Event}

theorem ending_main (prepared : Bool) (totalFileSize : ℕ) (disk : Disk) (clock : Clock)
    (headers : HeaderBuffer × HeaderBuffer) :
    Ending False (main chunkSize prepared totalFileSize disk clock headers) := by
  refine .live ⟨rfl, rfl, rfl, rfl⟩ id ?_
  rw [main]
  split <;> simp

theorem work_main (prepared : Bool) (totalFileSize : ℕ) (disk : Disk) (clock : Clock)
    (headers : HeaderBuffer × HeaderBuffer) :
    (main chunkSize prepared totalFileSize disk clock headers).work ≤
      3 * Blocks.count chunkSize.val disk.size + 3 := by
  have htotal := @TCPClient.totalChunksToSend_new chunkSize disk (.new clock) headers
  cases hpc : (main chunkSize prepared totalFileSize disk clock headers).pc with
  | exited status =>
    rw [work, hpc]
    exact Nat.zero_le _
  | running =>
    rw [work_running hpc]
    show 3 * ((TCPClient.new chunkSize disk (.new clock) headers).mTotalChunksToSend - 0) + 3 ≤ _
    rw [htotal, Nat.sub_zero]

/-- The work that is left bounds the rest of the run. -/
theorem ending_run (ht : run (step host chunkSize) es
      (main chunkSize prepared totalFileSize disk clock headers) = some t) :
    Ending (Sometime (step host chunkSize) (Fails host chunkSize) es
      (main chunkSize prepared totalFileSize disk clock headers)) t ∧
    es.length + t.work ≤ 3 * Blocks.count chunkSize.val disk.size + 3 := by
  refine run_induction (P := fun es t => Ending (Sometime (step host chunkSize)
      (Fails host chunkSize) es (main chunkSize prepared totalFileSize disk clock headers)) t ∧
    es.length + t.work ≤ 3 * Blocks.count chunkSize.val disk.size + 3) ?_ ?_ es t ht
  · refine ⟨ending_main prepared totalFileSize disk clock headers, ?_⟩
    have hwork := @work_main chunkSize prepared totalFileSize disk clock headers
    rwa [List.length_nil, Nat.zero_add]
  · rintro es t e u ht ⟨hending, hlength⟩ hu
    have hstage := stage_run (stage_main prepared totalFileSize clock headers) ht
    obtain ⟨hnext, hwork⟩ := ending_step hending hstage hu
    refine ⟨hnext.congr (sometime_concat ht).symm, ?_⟩
    rw [List.length_append, List.length_singleton]
    omega

/-- As long as `main` runs, an operation can complete or `run` can return. -/
theorem exists_step {failed refuted : Prop} (h : Stage disk chunkSize failed refuted c.client)
    (hpc : c.pc = .running) : ∃ e, e ≠ .throws ∧ (c.step host chunkSize e).isSome := by
  cases hio : c.client.ioContextStopped with
  | true => exact ⟨.returns, by simp, by simp [step, hpc, hio]⟩
  | false =>
    cases hp : c.client.pending with
    | none => simp [ready_returns h (.inr hp)] at hio
    | some op =>
      cases op with
      | resolve => exact ⟨.resolved .success, by simp, by simp [step, hpc, hio, handle, hp]⟩
      | connect => exact ⟨.connected .success, by simp, by simp [step, hpc, hio, handle, hp]⟩
      | write buffers => exact ⟨.written .success, by simp, by simp [step, hpc, hio, handle, hp]⟩
      | readHeader =>
        exact ⟨.headerRead .success c.client.mReadHeaderBuffer, by simp,
          by simp [step, hpc, hio, handle, hp]⟩
      | readBody =>
        exact ⟨.bodyRead .success 0 c.client.mReadBodyBuffer, by simp,
          by simp [step, hpc, hio, handle, hp]⟩

/-- Whatever the operations and the reads of the file come to, `main` ends after at most three
handlers for each chunk and three steps more, it is never left without an operation to wait
for, and it returns with a client that was stopped for what happened: with an error exactly if
some operation or some answer had failed. -/
theorem run_ends (ht : run (step host chunkSize) es
      (main chunkSize prepared totalFileSize disk clock headers) = some t) :
    es.length ≤ 3 * Blocks.count chunkSize.val disk.size + 3 ∧
    (t.pc = .running → ∃ e, e ≠ .throws ∧ (t.step host chunkSize e).isSome) ∧
    (t.pc = .exited 0 → t.client.Closed (decide (Sometime (step host chunkSize)
      (Fails host chunkSize) es (main chunkSize prepared totalFileSize disk clock headers)))) := by
  have hstage := stage_run (stage_main prepared totalFileSize clock headers) ht
  obtain ⟨hending, hlength⟩ := ending_run ht
  refine ⟨by omega, exists_step hstage, fun hpc => ?_⟩
  cases hending with
  | live hlive hfailed hreturned => exact absurd hpc hreturned
  | closed error hclosed hiff =>
    have herror : error = decide (Sometime (step host chunkSize) (Fails host chunkSize) es
        (main chunkSize prepared totalFileSize disk clock headers)) := by
      rw [Bool.eq_iff_iff, decide_eq_true_iff]
      exact hiff
    exact herror ▸ hclosed

/-- The wrong answer to the one chunk ends `main` after six steps, as many as there can be. -/
theorem run_ends_refuted :
    ∃ t, run (step .big ⟨1, by decide, by decide⟩) (refutedRun ++ [.returns])
        (main ⟨1, by decide, by decide⟩ true 1 (Disk.ofFile ⟨[1], by decide⟩) ⟨fun _ => 0, 0⟩
          (⟨[0, 0, 0, 0], rfl⟩, ⟨[0, 0, 0, 0], rfl⟩)) = some t ∧
      (refutedRun ++ [Event.returns]).length ≤ 6 ∧ t.client.Closed true := by
  have hrun : (run (step .big ⟨1, by decide, by decide⟩) (refutedRun ++ [.returns])
      (main ⟨1, by decide, by decide⟩ true 1 (Disk.ofFile ⟨[1], by decide⟩) ⟨fun _ => 0, 0⟩
        (⟨[0, 0, 0, 0], rfl⟩, ⟨[0, 0, 0, 0], rfl⟩))).map (fun t => t.pc) =
      some (.exited 0) := by decide +kernel
  obtain ⟨t, ht, hpc⟩ := Option.map_eq_some_iff.mp hrun
  obtain ⟨hlength, -, hclosed⟩ := run_ends ht
  refine ⟨t, ht, hlength, ?_⟩
  have hfailed : decide (Sometime (step .big ⟨1, by decide, by decide⟩)
      (Fails .big ⟨1, by decide, by decide⟩) (refutedRun ++ [.returns])
      (main ⟨1, by decide, by decide⟩ true 1 (Disk.ofFile ⟨[1], by decide⟩) ⟨fun _ => 0, 0⟩
        (⟨[0, 0, 0, 0], rfl⟩, ⟨[0, 0, 0, 0], rfl⟩))) = true := by decide +kernel
  exact hfailed ▸ hclosed hpc

end Program

end ReversalBench.Tcp
