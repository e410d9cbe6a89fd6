import ReversalBench.Tcp.Exit

/-! The counters of the C++ TCP client (`tcp_client.cpp`), which live in the client, in its chunk
reader and in its metrics, through all handlers and all outcomes of its operations. They are
in step while no chunk is outstanding; a chunk that is outstanding, or has failed, was read
and is not yet counted as sent; a chunk whose verification failed is recorded and not
counted either. -/

namespace ReversalBench.Tcp

open ChunkReader (delivered)

namespace MetricsAggregator

/-- The chunks that were recorded have the sizes `sizes`, and `verified` of them were verified. -/
structure Recorded (sizes : List ℕ) (verified : ℕ) (m : MetricsAggregator) : Prop where
  verified_eq : m.mVerifiedChunksCount = verified
  processed : m.mProcessedChunksCount = m.mChunkRttData.length
  indices : m.mChunkRttData.map ChunkRTTInfo.chunkIndex = List.range' 1 m.mChunkRttData.length
  sizes_eq : m.mChunkRttData.map ChunkRTTInfo.chunkSizeBytes = sizes
  bytes : m.mTotalBytesProcessed = sizes.sum

variable {sizes : List ℕ} {verified : ℕ} {m : MetricsAggregator}

theorem recorded_new (clock : Clock) : Recorded [] 0 (new clock) := ⟨rfl, rfl, rfl, rfl, rfl⟩

theorem Recorded.startTimer (h : Recorded sizes verified m) :
    Recorded sizes verified m.startTimer := by
  unfold MetricsAggregator.startTimer
  split
  · exact ⟨h.verified_eq, h.processed, h.indices, h.sizes_eq, h.bytes⟩
  · exact h

theorem Recorded.stopTimer (h : Recorded sizes verified m) :
    Recorded sizes verified m.stopTimer := by
  unfold MetricsAggregator.stopTimer
  split
  · exact ⟨h.verified_eq, h.processed, h.indices, h.sizes_eq, h.bytes⟩
  · exact h

theorem Recorded.startChunkRttTimer (h : Recorded sizes verified m) :
    Recorded sizes verified m.startChunkRttTimer :=
  ⟨h.verified_eq, h.processed, h.indices, h.sizes_eq, h.bytes⟩

/-- The next chunk is recorded under the next index. -/
theorem Recorded.stopAndRecordChunkRtt (h : Recorded sizes verified m) (n : ℕ) (v : Bool) :
    Recorded (sizes ++ [n]) (if v then verified + 1 else verified)
      (m.stopAndRecordChunkRtt n v) := by
  constructor
  · show (if v then m.mVerifiedChunksCount + 1 else m.mVerifiedChunksCount) = _
    rw [h.verified_eq]
  · show m.mProcessedChunksCount + 1 = (m.mChunkRttData ++ [_]).length
    rw [List.length_append, h.processed]
    rfl
  · show (m.mChunkRttData ++ [_]).map _ = List.range' 1 (m.mChunkRttData ++ [_]).length
    rw [List.map_append, h.indices, List.length_append, List.length_singleton, List.range'_concat,
      List.map_singleton, h.processed, Nat.add_comm 1, Nat.one_mul]
  · show (m.mChunkRttData ++ [_]).map _ = _
    rw [List.map_append, h.sizes_eq]
    rfl
  · show m.mTotalBytesProcessed + n = _
    rw [h.bytes, List.sum_append, List.sum_singleton]

theorem Recorded.length (h : Recorded sizes verified m) :
    m.mChunkRttData.length = sizes.length := by
  rw [← h.sizes_eq, List.length_map]

end MetricsAggregator

open MetricsAggregator (Recorded)

/-- The sizes of the first `n` chunks that the reader delivers. -/
def deliveredSizes (disk : Disk) (chunkSize : ChunkSize) (n : ℕ) : List ℕ :=
  (List.range n).map fun k => (delivered disk chunkSize k).length

theorem deliveredSizes_succ (disk : Disk) (chunkSize : ChunkSize) (n : ℕ) :
    deliveredSizes disk chunkSize (n + 1) =
      deliveredSizes disk chunkSize n ++ [(delivered disk chunkSize n).length] := by
  rw [deliveredSizes, List.range_succ, List.map_append]
  rfl

/-- The operation belongs to the exchange of a chunk. -/
def ClientOperation.exchanges : ClientOperation → Bool
  | .write _ | .readHeader | .readBody => true
  | .resolve | .connect => false

namespace TCPClient

variable {host : ByteOrder} {chunkSize : ChunkSize} {disk : Disk} {k : ℕ} {s : TCPClient}
  {failed refuted : Prop}

/-- A chunk was read and its answer has not been compared. -/
def Outstanding (s : TCPClient) : Prop := s.pending.any ClientOperation.exchanges

instance (s : TCPClient) : Decidable s.Outstanding := inferInstanceAs (Decidable (_ = true))

theorem not_outstanding_of_none (h : s.pending = none) : ¬s.Outstanding := by
  simp [Outstanding, h]

/-- What the counters are in each part of a run. A chunk has `failed` when its exchange did not
end well; it was `refuted` when its answer was a wrong one. -/
inductive Stage (disk : Disk) (chunkSize : ChunkSize) (failed refuted : Prop) (s : TCPClient) :
    Prop where
  | starting (client : Running disk chunkSize 0 s)
      (reader : s.mChunkReader = .new disk chunkSize)
      (pending : s.pending = some .resolve ∨ s.pending = some .connect)
      (metrics : s.mMetrics.Recorded [] 0) (not_failed : ¬failed) (not_refuted : ¬refuted)
  | outstanding (k : ℕ) (client : Awaiting disk chunkSize k s) (pending : s.Outstanding)
      (chunksRead : s.mChunkReader.chunksRead = k + 1)
      (metrics : s.mMetrics.Recorded (deliveredSizes disk chunkSize k) k)
      (not_failed : ¬failed) (not_refuted : ¬refuted)
  | stopped (operations : s.mOperationsStopped = true) (context : s.ioContextStopped = true)
      (pending : s.pending = none)
      (chunksRead : (failed ∧ s.mChunkReader.chunksRead = s.mChunksSent + 1) ∨
        (¬failed ∧ s.mChunkReader.chunksRead = s.mChunksSent))
      (metrics : (refuted ∧ s.mMetrics.Recorded
          (deliveredSizes disk chunkSize (s.mChunksSent + 1)) s.mChunksSent) ∨
        (¬refuted ∧ s.mMetrics.Recorded
          (deliveredSizes disk chunkSize s.mChunksSent) s.mChunksSent))

theorem stopClientOperations_eq (h : s.mOperationsStopped = false) (error : Bool) :
    s.stopClientOperations error = { s with
      mOperationsStopped := true
      mMetrics := if !s.mTimerStoppedFlag then s.mMetrics.stopTimer else s.mMetrics
      mTimerStoppedFlag := true
      mSocketOpen := false
      ioContextStopped := true
      stoppedWith := some error } := by
  simp [stopClientOperations, h]

/-- Stopping leaves the counters as they are. -/
theorem stage_stop (s : TCPClient) (hrun : s.mOperationsStopped = false)
    (hpending : s.pending = none)
    (hread : (failed ∧ s.mChunkReader.chunksRead = s.mChunksSent + 1) ∨
      (¬failed ∧ s.mChunkReader.chunksRead = s.mChunksSent))
    (hmetrics : (refuted ∧ s.mMetrics.Recorded
        (deliveredSizes disk chunkSize (s.mChunksSent + 1)) s.mChunksSent) ∨
      (¬refuted ∧ s.mMetrics.Recorded
        (deliveredSizes disk chunkSize s.mChunksSent) s.mChunksSent)) (error : Bool) :
    Stage disk chunkSize failed refuted (s.stopClientOperations error) := by
  have hstop : ∀ {sizes : List ℕ} {n : ℕ}, s.mMetrics.Recorded sizes n →
      (if !s.mTimerStoppedFlag then s.mMetrics.stopTimer else s.mMetrics).Recorded sizes n := by
    intro sizes n h
    split
    · exact h.stopTimer
    · exact h
  rw [stopClientOperations_eq hrun]
  refine .stopped rfl rfl hpending hread ?_
  exact hmetrics.imp (And.imp_right hstop) (And.imp_right hstop)

/-- Between two chunks the next one is read and written, or the client is done. -/
theorem Ready.stage_sendNextChunk (h : Ready disk chunkSize k s) (hpending : s.pending = none)
    (hmetrics : s.mMetrics.Recorded (deliveredSizes disk chunkSize k) k) (hfailed : ¬failed)
    (hrefuted : ¬refuted) : Stage disk chunkSize failed refuted (s.sendNextChunk host) := by
  have hrecorded : s.mMetrics.Recorded
      (deliveredSizes disk chunkSize s.mChunksSent) s.mChunksSent := by
    rw [h.sent]
    exact hmetrics
  rcases Nat.lt_or_ge k (Blocks.count chunkSize.val disk.size) with hk | hk
  · have hcount := h.reader.chunksRead_succ
    by_cases hempty : delivered disk chunkSize k = []
    · rw [h.sendNextChunk_empty_eq hk hempty]
      rw [if_pos hempty] at hcount
      exact stage_stop { s with
          mCurrentChunkData := []
          mChunkReader := s.mChunkReader.readNextChunk.2 } h.notStopped hpending
        (.inr ⟨hfailed, hcount.trans h.sent.symm⟩) (.inr ⟨hrefuted, hrecorded⟩) false
    · obtain ⟨hawait, hwrite⟩ := @Ready.sendNextChunk_chunk host _ _ _ _ h hk hempty
      rw [if_neg hempty] at hcount
      have hreader : (s.sendNextChunk host).mChunkReader = s.mChunkReader.readNextChunk.2 := by
        rw [h.sendNextChunk_eq hk hempty]
      have hafter : (s.sendNextChunk host).mMetrics = s.mMetrics.startChunkRttTimer := by
        rw [h.sendNextChunk_eq hk hempty]
      refine .outstanding k hawait ?_ ?_ ?_ hfailed hrefuted
      · simp [Outstanding, ClientOperation.exchanges, hwrite]
      · rw [hreader]
        exact hcount
      · rw [hafter]
        exact hmetrics.startChunkRttTimer
  · rw [h.toRunning.sendNextChunk_stop hk]
    exact stage_stop s h.notStopped hpending
      (.inr ⟨hfailed, h.reader.chunksRead.trans h.sent.symm⟩) (.inr ⟨hrefuted, hrecorded⟩) false

/-- The expected answer is recorded and counted. -/
theorem Awaiting.stage_right (h : Awaiting disk chunkSize k s) (hpending : s.pending = none)
    (hread : s.mChunkReader.chunksRead = k + 1)
    (hmetrics : s.mMetrics.Recorded (deliveredSizes disk chunkSize k) k) (hfailed : ¬failed)
    (hrefuted : ¬refuted) (hbody : s.mReadBodyBuffer = (delivered disk chunkSize k).reverse) :
    Stage disk chunkSize failed refuted (s.handleReceivedChunkData host) := by
  have hrecorded : s.verifiedNext.mMetrics.Recorded (deliveredSizes disk chunkSize (k + 1))
      (k + 1) := by
    rw [deliveredSizes_succ, ← h.current]
    exact hmetrics.stopAndRecordChunkRtt _ true
  have hsent : s.verifiedNext.mChunksSent = k + 1 := congrArg Nat.succ h.sent
  rw [h.handle_right hbody]
  split
  next hlast =>
    refine stage_stop s.verifiedNext h.notStopped hpending
      (.inr ⟨hfailed, hread.trans hsent.symm⟩) (.inr ⟨hrefuted, ?_⟩) false
    rw [hsent]
    exact hrecorded
  next hmore =>
    obtain ⟨hmore, hfull⟩ := not_or.mp hmore
    have hle := ChunkReader.length_delivered_le disk chunkSize k
    obtain ⟨hready, -⟩ :=
      @Awaiting.handle_more host _ _ _ _ h hbody (by omega) (by omega)
    exact hready.stage_sendNextChunk hpending hrecorded hfailed hrefuted

/-- A wrong answer is recorded and not counted. -/
theorem Awaiting.stage_wrong (h : Awaiting disk chunkSize k s) (hpending : s.pending = none)
    (hread : s.mChunkReader.chunksRead = k + 1)
    (hmetrics : s.mMetrics.Recorded (deliveredSizes disk chunkSize k) k) (hfailed : failed)
    (hrefuted : refuted) (hbody : s.mReadBodyBuffer ≠ (delivered disk chunkSize k).reverse) :
    Stage disk chunkSize failed refuted (s.handleReceivedChunkData host) := by
  rw [h.handle_wrong_eq hbody]
  have hsent := h.sent
  refine stage_stop { s with
      mMetrics := s.mMetrics.stopAndRecordChunkRtt (delivered disk chunkSize k).length false }
    h.notStopped hpending (.inl ⟨hfailed, ?_⟩) (.inl ⟨hrefuted, ?_⟩) true
  · exact hread.trans (congrArg Nat.succ hsent.symm)
  · show (s.mMetrics.stopAndRecordChunkRtt _ false).Recorded
      (deliveredSizes disk chunkSize (s.mChunksSent + 1)) s.mChunksSent
    rw [hsent, deliveredSizes_succ]
    exact hmetrics.stopAndRecordChunkRtt _ false

/-- A chunk whose exchange fails without an answer is not recorded. -/
theorem Awaiting.stage_fail (h : Awaiting disk chunkSize k s) (hpending : s.pending = none)
    (hread : s.mChunkReader.chunksRead = k + 1)
    (hmetrics : s.mMetrics.Recorded (deliveredSizes disk chunkSize k) k) (hfailed : failed)
    (hrefuted : ¬refuted) :
    Stage disk chunkSize failed refuted (s.stopClientOperations true) := by
  have hsent := h.sent
  refine stage_stop s h.notStopped hpending (.inl ⟨hfailed, ?_⟩) (.inr ⟨hrefuted, ?_⟩) true
  · exact hread.trans (congrArg Nat.succ hsent.symm)
  · rw [hsent]
    exact hmetrics

/-- Connecting has succeeded. -/
theorem Running.stage_connected (h : Running disk chunkSize 0 s)
    (hreader : s.mChunkReader = .new disk chunkSize) (hpending : s.pending = none)
    (hmetrics : s.mMetrics.Recorded [] 0) (hfailed : ¬failed) (hrefuted : ¬refuted) :
    Stage disk chunkSize failed refuted (s.onConnect host .success) := by
  have hstarted : s.mMetrics.startTimer.Recorded [] 0 := hmetrics.startTimer
  have hrun : Running disk chunkSize 0 { s with mMetrics := s.mMetrics.startTimer } :=
    ⟨h.notStopped, h.ioRuns, h.sent, h.total, h.fileSize,
      (MetricsAggregator.verifiedBytes_startTimer _).trans h.verified⟩
  rw [onConnect, if_pos rfl]
  by_cases hsize : disk.size = 0
  · have hcount : Blocks.count chunkSize.val disk.size ≤ 0 := by
      rw [hsize, Blocks.count_zero]
    rw [hrun.sendNextChunk_stop hcount]
    refine stage_stop _ hrun.notStopped hpending (.inr ⟨hfailed, ?_⟩) (.inr ⟨hrefuted, ?_⟩) false
    · show s.mChunkReader.chunksRead = s.mChunksSent
      rw [hreader, h.sent]
      rfl
    · rw [hrun.sent]
      exact hstarted
  · have hready : Ready disk chunkSize 0 { s with mMetrics := s.mMetrics.startTimer } :=
      ⟨hrun, hreader ▸ ChunkReader.at_new hsize⟩
    exact hready.stage_sendNextChunk hpending hstarted hfailed hrefuted

end TCPClient

namespace Program

open TCPClient (Stage Running Awaiting stage_stop)

variable (host : ByteOrder) (chunkSize : ChunkSize)

/-- The exchange of a chunk ends in a failure. -/
def ChunkFails (c : Program) (e : Event) : Prop :=
  c.client.Outstanding ∧ c.Fails host chunkSize e

instance (c : Program) (e : Event) : Decidable (c.ChunkFails host chunkSize e) :=
  inferInstanceAs (Decidable (_ ∧ _))

/-- An answer is complete and not the reversed chunk. -/
def VerificationFails (c : Program) : Event → Prop
  | .headerRead ec buffer =>
    ec = .success ∧ (parseHeader host buffer).toNat = 0 ∧ c.client.mExpectedReversedChunk ≠ []
  | .bodyRead ec lengthRead buffer =>
    ec = .success ∧ lengthRead = buffer.length ∧ buffer ≠ c.client.mExpectedReversedChunk
  | .resolved _ | .connected _ | .written _ | .throws | .returns => False

instance (c : Program) : ∀ e, Decidable (c.VerificationFails host e)
  | .headerRead _ _ => inferInstanceAs (Decidable (_ = _ ∧ _ = _ ∧ _ ≠ _))
  | .bodyRead _ _ _ => inferInstanceAs (Decidable (_ = _ ∧ _ = _ ∧ _ ≠ _))
  | .resolved _ | .connected _ | .written _ | .throws | .returns =>
    inferInstanceAs (Decidable False)

variable {host chunkSize} {disk : Disk} {failed refuted : Prop} {c t : Program} {e : Event} {k : ℕ}

/-- Before the first chunk no chunk can fail. -/
theorem stage_starting (hrun : Running disk chunkSize 0 c.client)
    (hreader : c.client.mChunkReader = .new disk chunkSize)
    (hpending : c.client.pending = some .resolve ∨ c.client.pending = some .connect)
    (hmetrics : c.client.mMetrics.Recorded [] 0) (hfailed : ¬failed) (hrefuted : ¬refuted)
    (ht : c.handle host chunkSize e = some t) :
    Stage disk chunkSize (failed ∨ c.ChunkFails host chunkSize e)
      (refuted ∨ c.VerificationFails host e) t.client := by
  have hidle : ¬c.client.Outstanding := by
    rcases hpending with hp | hp <;> simp [TCPClient.Outstanding, ClientOperation.exchanges, hp]
  have hfailed : ¬(failed ∨ c.ChunkFails host chunkSize e) := by
    rintro (h | h)
    · exact hfailed h
    · exact hidle h.1
  have hnew : c.client.mChunkReader.chunksRead = c.client.mChunksSent := by
    rw [hreader, hrun.sent]
    rfl
  have hrecorded : c.client.mMetrics.Recorded
      (deliveredSizes disk chunkSize c.client.mChunksSent) c.client.mChunksSent := by
    rw [hrun.sent]
    exact hmetrics
  rcases hpending with hp | hp
  · cases e with
    | resolved ec =>
      have hrefuted : ¬(refuted ∨ c.VerificationFails host (.resolved ec)) := by
        simpa [VerificationFails] using hrefuted
      simp only [handle, hp, Option.some.injEq] at ht
      subst ht
      by_cases hec : ec = .success
      · rw [TCPClient.onResolve, if_pos hec]
        exact .starting (hrun.update _ true) hreader (.inr rfl) hmetrics hfailed hrefuted
      · rw [TCPClient.onResolve, if_neg hec]
        exact stage_stop { c.client with pending := none } hrun.notStopped rfl
          (.inr ⟨hfailed, hnew⟩) (.inr ⟨hrefuted, hrecorded⟩) true
    | _ => simp [handle, hp] at ht
  · cases e with
    | connected ec =>
      have hrefuted : ¬(refuted ∨ c.VerificationFails host (.connected ec)) := by
        simpa [VerificationFails] using hrefuted
      simp only [handle, hp, Option.some.injEq] at ht
      subst ht
      by_cases hec : ec = .success
      · rw [hec]
        exact (hrun.update none c.client.mSocketOpen).stage_connected hreader rfl hmetrics
          (hec ▸ hfailed) (hec ▸ hrefuted)
      · rw [TCPClient.onConnect, if_neg hec]
        exact stage_stop { c.client with pending := none } hrun.notStopped rfl
          (.inr ⟨hfailed, hnew⟩) (.inr ⟨hrefuted, hrecorded⟩) true
    | _ => simp [handle, hp] at ht

section Exchange

variable (hawait : Awaiting disk chunkSize k c.client)
  (hread : c.client.mChunkReader.chunksRead = k + 1)
  (hmetrics : c.client.mMetrics.Recorded (deliveredSizes disk chunkSize k) k)
  (hfailed : ¬failed) (hrefuted : ¬refuted)

include hawait hread hmetrics hfailed hrefuted

theorem stage_written {buffers : List (List UInt8)} (hp : c.client.pending = some (.write buffers))
    (ht : c.handle host chunkSize e = some t) :
    Stage disk chunkSize (failed ∨ c.ChunkFails host chunkSize e)
      (refuted ∨ c.VerificationFails host e) t.client := by
  have hchunk : c.client.Outstanding := by
    simp [TCPClient.Outstanding, ClientOperation.exchanges, hp]
  cases e with
  | written ec =>
    have hrefuted : ¬(refuted ∨ c.VerificationFails host (.written ec)) := by
      simpa [VerificationFails] using hrefuted
    simp only [handle, hp, Option.some.injEq] at ht
    subst ht
    have hnone := hawait.update none c.client.mReadHeaderBuffer c.client.mReadBodyBuffer
    by_cases hec : ec = .success
    · have hfailed : ¬(failed ∨ c.ChunkFails host chunkSize (.written ec)) := by
        simpa [ChunkFails, Fails, hec] using hfailed
      subst hec
      rw [hnone.onWrite_success]
      exact .outstanding k (hawait.update _ _ _) rfl hread hmetrics hfailed hrefuted
    · rw [hnone.onWrite_error hec]
      exact hnone.stage_fail rfl hread hmetrics (.inr ⟨hchunk, hec⟩) hrefuted
  | _ => simp [handle, hp] at ht

theorem stage_headerRead (hp : c.client.pending = some .readHeader)
    (ht : c.handle host chunkSize e = some t) :
    Stage disk chunkSize (failed ∨ c.ChunkFails host chunkSize e)
      (refuted ∨ c.VerificationFails host e) t.client := by
  have hchunk : c.client.Outstanding := by
    simp [TCPClient.Outstanding, ClientOperation.exchanges, hp]
  cases e with
  | headerRead ec buffer =>
    simp only [handle, hp, Option.some.injEq] at ht
    subst ht
    have hnone := hawait.update none buffer c.client.mReadBodyBuffer
    by_cases hec : ec = .success
    · subst hec
      by_cases hlong : (parseHeader host buffer).toNat > chunkSize.val * 2
      · have hrefuted : ¬(refuted ∨ c.VerificationFails host (.headerRead .success buffer)) := by
          rintro (h | ⟨-, hzero, -⟩)
          · exact hrefuted h
          · omega
        rw [@Awaiting.onReadHeader_long host _ _ _ _ hnone hlong]
        exact hnone.stage_fail rfl hread hmetrics (.inr ⟨hchunk, .inr (.inl hlong)⟩) hrefuted
      by_cases hzero : (parseHeader host buffer).toNat = 0
      · rw [@Awaiting.onReadHeader_empty host _ _ _ _ hnone hzero]
        have hempty := hawait.update none buffer []
        by_cases hbody : [] = (delivered disk chunkSize k).reverse
        · have hexpected : c.client.mExpectedReversedChunk = [] := hawait.expected.trans hbody.symm
          have hfailed : ¬(failed ∨ c.ChunkFails host chunkSize (.headerRead .success buffer)) := by
            rintro (h | ⟨-, h⟩)
            · exact hfailed h
            · simp [Fails, hzero, hexpected] at h
          have hrefuted : ¬(refuted ∨ c.VerificationFails host (.headerRead .success buffer)) := by
            rintro (h | ⟨-, -, h⟩)
            · exact hrefuted h
            · exact h hexpected
          exact hempty.stage_right rfl hread hmetrics hfailed hrefuted hbody
        · have hexpected : c.client.mExpectedReversedChunk ≠ [] := by
            rw [hawait.expected]
            exact Ne.symm hbody
          exact hempty.stage_wrong rfl hread hmetrics
            (.inr ⟨hchunk, .inr (.inr ⟨hzero, hexpected⟩)⟩) (.inr ⟨rfl, hzero, hexpected⟩) hbody
      · have hfailed : ¬(failed ∨ c.ChunkFails host chunkSize (.headerRead .success buffer)) := by
          rintro (h | ⟨-, h⟩)
          · exact hfailed h
          · simp [Fails, hzero, hlong] at h
        have hrefuted : ¬(refuted ∨ c.VerificationFails host (.headerRead .success buffer)) := by
          rintro (h | ⟨-, h, -⟩)
          · exact hrefuted h
          · exact hzero h
        rw [@Awaiting.onReadHeader_body host _ _ _ _ hnone hlong hzero]
        exact .outstanding k (hawait.update _ _ _) rfl hread hmetrics hfailed hrefuted
    · have hrefuted : ¬(refuted ∨ c.VerificationFails host (.headerRead ec buffer)) := by
        rintro (h | ⟨h, -⟩)
        · exact hrefuted h
        · exact hec h
      rw [hnone.onReadHeader_error hec]
      exact hnone.stage_fail rfl hread hmetrics (.inr ⟨hchunk, .inl hec⟩) hrefuted
  | _ => simp [handle, hp] at ht

theorem stage_bodyRead (hp : c.client.pending = some .readBody)
    (ht : c.handle host chunkSize e = some t) :
    Stage disk chunkSize (failed ∨ c.ChunkFails host chunkSize e)
      (refuted ∨ c.VerificationFails host e) t.client := by
  have hchunk : c.client.Outstanding := by
    simp [TCPClient.Outstanding, ClientOperation.exchanges, hp]
  cases e with
  | bodyRead ec lengthRead buffer =>
    simp only [handle, hp] at ht
    split at ht
    · cases ht
      have hnone := hawait.update none c.client.mReadHeaderBuffer buffer
      by_cases hbad : ec ≠ .success ∨ lengthRead ≠ buffer.length
      · have hfails : c.Fails host chunkSize (.bodyRead ec lengthRead buffer) :=
          hbad.imp_right .inl
        have hrefuted :
            ¬(refuted ∨ c.VerificationFails host (.bodyRead ec lengthRead buffer)) := by
          rintro (h | ⟨hec, hlength, -⟩)
          · exact hrefuted h
          · exact hbad.elim (absurd hec) (absurd hlength)
        rw [@Awaiting.onReadBody_error host _ _ _ _ hnone _ _ hbad]
        exact hnone.stage_fail rfl hread hmetrics (.inr ⟨hchunk, hfails⟩) hrefuted
      · simp only [ne_eq, not_or, not_not] at hbad
        obtain ⟨rfl, rfl⟩ := hbad
        rw [@Awaiting.onReadBody_full host _ _ _ _ hnone]
        by_cases hbody : buffer = (delivered disk chunkSize k).reverse
        · have hexpected : buffer = c.client.mExpectedReversedChunk :=
            hbody.trans hawait.expected.symm
          have hfailed : ¬(failed ∨
              c.ChunkFails host chunkSize (.bodyRead .success buffer.length buffer)) := by
            rintro (h | ⟨-, h⟩)
            · exact hfailed h
            · simp [Fails, ← hexpected] at h
          have hrefuted :
              ¬(refuted ∨ c.VerificationFails host (.bodyRead .success buffer.length buffer)) := by
            rintro (h | ⟨-, -, h⟩)
            · exact hrefuted h
            · exact h hexpected
          exact hnone.stage_right rfl hread hmetrics hfailed hrefuted hbody
        · have hexpected : buffer ≠ c.client.mExpectedReversedChunk := by
            rw [hawait.expected]
            exact hbody
          exact hnone.stage_wrong rfl hread hmetrics (.inr ⟨hchunk, .inr (.inr hexpected)⟩)
            (.inr ⟨rfl, rfl, hexpected⟩) hbody
    · cases ht
  | _ => simp [handle, hp] at ht

end Exchange

/-- A handler keeps the counters in their stage. -/
theorem stage_handle (h : Stage disk chunkSize failed refuted c.client)
    (hio : c.client.ioContextStopped = false) (ht : c.handle host chunkSize e = some t) :
    Stage disk chunkSize (failed ∨ c.ChunkFails host chunkSize e)
      (refuted ∨ c.VerificationFails host e) t.client := by
  cases h with
  | starting hrun hreader hpending hmetrics hfailed hrefuted =>
    exact stage_starting hrun hreader hpending hmetrics hfailed hrefuted ht
  | outstanding k hawait hchunk hread hmetrics hfailed hrefuted =>
    cases hp : c.client.pending with
    | none => exact absurd hchunk (TCPClient.not_outstanding_of_none hp)
    | some op =>
      cases op with
      | write buffers => exact stage_written hawait hread hmetrics hfailed hrefuted hp ht
      | readHeader => exact stage_headerRead hawait hread hmetrics hfailed hrefuted hp ht
      | readBody => exact stage_bodyRead hawait hread hmetrics hfailed hrefuted hp ht
      | _ => simp [TCPClient.Outstanding, ClientOperation.exchanges, hp] at hchunk
  | stopped _ hcontext =>
    rw [hcontext] at hio
    cases hio

theorem stage_step (h : Stage disk chunkSize failed refuted c.client)
    (ht : c.step host chunkSize e = some t) :
    Stage disk chunkSize (failed ∨ c.ChunkFails host chunkSize e)
      (refuted ∨ c.VerificationFails host e) t.client := by
  cases hpc : c.pc with
  | exited status => simp [step, hpc] at ht
  | running =>
    cases e with
    | throws =>
      simp only [step, hpc, Option.some.injEq] at ht
      subst ht
      simpa [ChunkFails, Fails, VerificationFails] using h
    | returns =>
      simp only [step, hpc] at ht
      split at ht <;> cases ht
      simpa [ChunkFails, Fails, VerificationFails] using h
    | _ =>
      simp only [step, hpc] at ht
      split at ht
      · cases ht
      next hio => exact stage_handle h (Bool.eq_false_iff.mpr hio) ht

theorem stage_main (prepared : Bool) (totalFileSize : ℕ) (clock : Clock)
    (headers : HeaderBuffer × HeaderBuffer) :
    Stage disk chunkSize False False
      (main chunkSize prepared totalFileSize disk clock headers).client := by
  refine .starting ⟨rfl, rfl, rfl, ?_, rfl, ?_⟩ rfl (.inl rfl) ?_ id id
  · exact TCPClient.totalChunksToSend_new disk (.new clock) headers
  · simp [main, TCPClient.new, TCPClient.start]
  · exact MetricsAggregator.recorded_new clock

/-! ### Whole runs -/

open Machine (run run_induction invariant_run Sometime sometime_concat)

variable {prepared : Bool} {totalFileSize : ℕ} {clock : Clock}
  {headers : HeaderBuffer × HeaderBuffer} {es es' : List Event}

theorem stage_run {c₀ : Program} (h : Stage disk chunkSize False False c₀.client)
    (ht : run (step host chunkSize) es c₀ = some t) :
    Stage disk chunkSize (Sometime (step host chunkSize) (ChunkFails host chunkSize) es c₀)
      (Sometime (step host chunkSize) (VerificationFails host) es c₀) t.client := by
  refine run_induction (P := fun es t => Stage disk chunkSize
    (Sometime (step host chunkSize) (ChunkFails host chunkSize) es c₀)
    (Sometime (step host chunkSize) (VerificationFails host) es c₀) t.client) ?_ ?_ es t ht
  · simpa only [Sometime] using h
  · intro es t e u ht ih hu
    rw [sometime_concat ht, sometime_concat ht]
    exact stage_step ih hu

/-- A stopped client has no operation left whose handler could run. -/
theorem step_stopped (hcontext : c.client.ioContextStopped = true)
    (ht : c.step host chunkSize e = some t) :
    t.client = c.client ∧ t.output = c.output ∧ t.bodies = c.bodies := by
  cases hpc : c.pc with
  | exited status => simp [step, hpc] at ht
  | running =>
    cases e with
    | throws =>
      simp only [step, hpc, Option.some.injEq] at ht
      exact ht ▸ ⟨rfl, rfl, rfl⟩
    | returns =>
      simp only [step, hpc, hcontext, true_or, if_true, Option.some.injEq] at ht
      exact ht ▸ ⟨rfl, rfl, rfl⟩
    | _ => simp [step, hpc, hcontext] at ht

theorem run_stopped (hcontext : c.client.ioContextStopped = true)
    (ht : run (step host chunkSize) es c = some t) :
    t.client = c.client ∧ t.output = c.output ∧ t.bodies = c.bodies := by
  refine invariant_run (P := fun t => t.client = c.client ∧ t.output = c.output ∧
    t.bodies = c.bodies) ?_ ⟨rfl, rfl, rfl⟩ ht
  rintro u e v ⟨hclient, houtput, hbodies⟩ hv
  obtain ⟨hclient', houtput', hbodies'⟩ := step_stopped (by rw [hclient, hcontext]) hv
  exact ⟨hclient'.trans hclient, houtput'.trans houtput, hbodies'.trans hbodies⟩

/-- The counters of the client, of its reader and of its metrics after a run in which a chunk
may have `failed` or been `refuted`. -/
structure InStep (disk : Disk) (chunkSize : ChunkSize) (failed refuted : Prop) [Decidable failed]
    [Decidable refuted] (s : TCPClient) : Prop where
  chunksRead : s.mChunkReader.chunksRead = s.mChunksSent + if s.Outstanding ∨ failed then 1 else 0
  verified : s.mMetrics.mVerifiedChunksCount = s.mChunksSent
  recorded : s.mMetrics.mProcessedChunksCount = s.mMetrics.mChunkRttData.length
  processed : s.mMetrics.mProcessedChunksCount = s.mChunksSent + if refuted then 1 else 0
  indices : s.mMetrics.mChunkRttData.map ChunkRTTInfo.chunkIndex =
    List.range' 1 s.mMetrics.mProcessedChunksCount
  sizes : s.mMetrics.mChunkRttData.map ChunkRTTInfo.chunkSizeBytes =
    deliveredSizes disk chunkSize s.mMetrics.mProcessedChunksCount
  bytes : s.mMetrics.mTotalBytesProcessed =
    (s.mMetrics.mChunkRttData.map ChunkRTTInfo.chunkSizeBytes).sum

variable [Decidable failed] [Decidable refuted] {s : TCPClient}

/-- What was recorded fixes the figures of the metrics. -/
theorem InStep.of_recorded {n : ℕ} (hn : n = s.mChunksSent + if refuted then 1 else 0)
    (hread : s.mChunkReader.chunksRead =
      s.mChunksSent + if s.Outstanding ∨ failed then 1 else 0)
    (h : s.mMetrics.Recorded (deliveredSizes disk chunkSize n) s.mChunksSent) :
    InStep disk chunkSize failed refuted s := by
  have hlength : s.mMetrics.mProcessedChunksCount = n := by
    rw [h.processed, h.length, deliveredSizes, List.length_map, List.length_range]
  refine ⟨hread, h.verified_eq, h.processed, hlength.trans hn, ?_, ?_, ?_⟩
  · rw [h.indices, h.processed]
  · rw [h.sizes_eq, hlength]
  · rw [h.bytes, h.sizes_eq]

theorem InStep.of_stage (h : Stage disk chunkSize failed refuted s) :
    InStep disk chunkSize failed refuted s := by
  cases h with
  | starting hrun hreader hpending hmetrics hfailed hrefuted =>
    have hidle : ¬s.Outstanding := by
      rcases hpending with hp | hp <;> simp [TCPClient.Outstanding, ClientOperation.exchanges, hp]
    refine .of_recorded (n := 0) ?_ ?_ ?_
    · rw [hrun.sent, if_neg hrefuted]
    · rw [hreader, hrun.sent, if_neg (not_or.mpr ⟨hidle, hfailed⟩)]
      rfl
    · rw [hrun.sent]
      exact hmetrics
  | outstanding k hawait hchunk hread hmetrics hfailed hrefuted =>
    refine .of_recorded (n := k) ?_ ?_ ?_
    · rw [hawait.sent, if_neg hrefuted, Nat.add_zero]
    · rw [hread, hawait.sent, if_pos (.inl hchunk)]
    · rw [hawait.sent]
      exact hmetrics
  | stopped _ _ hpending hread hmetrics =>
    have hread : s.mChunkReader.chunksRead =
        s.mChunksSent + if s.Outstanding ∨ failed then 1 else 0 := by
      rcases hread with ⟨hfailed, hread⟩ | ⟨hfailed, hread⟩
      · rw [hread, if_pos (.inr hfailed)]
      · rw [hread, if_neg (not_or.mpr ⟨TCPClient.not_outstanding_of_none hpending, hfailed⟩),
          Nat.add_zero]
    rcases hmetrics with ⟨hrefuted, hmetrics⟩ | ⟨hrefuted, hmetrics⟩
    · exact .of_recorded (by rw [if_pos hrefuted]) hread hmetrics
    · exact .of_recorded (by rw [if_neg hrefuted, Nat.add_zero]) hread hmetrics

/-- The counters are in step after every run, and once the client was stopped no handler reads,
sends or records anything any more. -/
theorem counters_inStep (ht : run (step host chunkSize) es
      (main chunkSize prepared totalFileSize disk clock headers) = some t) :
    InStep disk chunkSize
      (Sometime (step host chunkSize) (ChunkFails host chunkSize) es
        (main chunkSize prepared totalFileSize disk clock headers))
      (Sometime (step host chunkSize) (VerificationFails host) es
        (main chunkSize prepared totalFileSize disk clock headers)) t.client ∧
    (t.client.mOperationsStopped = true → t.client.pending = none ∧
      ∀ es' u, run (step host chunkSize) es' t = some u →
        u.client = t.client ∧ u.output = t.output ∧ u.bodies = t.bodies) := by
  have hstage := stage_run (stage_main prepared totalFileSize clock headers) ht
  refine ⟨.of_stage hstage, fun hstopped => ?_⟩
  cases hstage with
  | starting hrun =>
    rw [hrun.notStopped] at hstopped
    cases hstopped
  | outstanding k hawait =>
    rw [hawait.notStopped] at hstopped
    cases hstopped
  | stopped _ hcontext hpending =>
    exact ⟨hpending, fun es' u hu => run_stopped hcontext hu⟩

/-- The one chunk of a file, the byte 1, is answered by two bytes. -/
def refutedRun : List Event :=
  [.resolved .success, .connected .success, .written .success,
    .headerRead .success ⟨[0, 0, 0, 2], rfl⟩, .bodyRead .success 2 [9, 9]]

theorem counters_inStep_refuted :
    ∃ t, run (step .big ⟨1, by decide, by decide⟩) refutedRun
        (main ⟨1, by decide, by decide⟩ true 1 (Disk.ofFile ⟨[1], by decide⟩) ⟨fun _ => 0, 0⟩
          (⟨[0, 0, 0, 0], rfl⟩, ⟨[0, 0, 0, 0], rfl⟩)) = some t ∧
      t.client.mChunksSent = 0 ∧ t.client.mChunkReader.chunksRead = 1 ∧
      t.client.mMetrics.mVerifiedChunksCount = 0 ∧ t.client.mMetrics.mProcessedChunksCount = 1 := by
  have hrun : (run (step .big ⟨1, by decide, by decide⟩) refutedRun
      (main ⟨1, by decide, by decide⟩ true 1 (Disk.ofFile ⟨[1], by decide⟩) ⟨fun _ => 0, 0⟩
        (⟨[0, 0, 0, 0], rfl⟩, ⟨[0, 0, 0, 0], rfl⟩))).map (fun t => t.client.mChunksSent) =
      some 0 := by decide +kernel
  obtain ⟨t, ht, hsent⟩ := Option.map_eq_some_iff.mp hrun
  obtain ⟨hinStep, -⟩ := counters_inStep ht
  refine ⟨t, ht, hsent, hinStep.chunksRead.trans ?_, hinStep.verified.trans hsent,
    hinStep.processed.trans ?_⟩
  · rw [hsent, if_pos (.inr (by decide +kernel))]
  · rw [hsent, if_pos (by decide +kernel)]

end Program

end ReversalBench.Tcp
