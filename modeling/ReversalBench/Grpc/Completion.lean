import ReversalBench.Grpc.Progress

/-! Which runs of the gRPC client against the server end, over streams that do not fail.
The length of a run that returns is known from the number of responses that were dropped.
A run that cannot go on has returned or is deadlocked, with a full map of dropped requests;
this can happen exactly for the files that fill the window. A run without a dropped response
can always be continued in the same way and does not deadlock. -/

namespace ReversalBench.Grpc

open Blocks (blocks)
open Machine (run log Along Sometime)

variable {P : Params} {f : File} {chunkSize : ChunkSize} {s t : SystemState}

/-! ### The length of a run -/

/-- The work is done when the call has returned. -/
theorem Reached.work_eq_zero {dropped : List ℕ} {steps : ℕ}
    (h : Reached f chunkSize dropped steps t) (hj : JoinInv t.client) {allVerified : Bool}
    (hret : t.client.main = .returned allVerified) : t.work f chunkSize = 0 := by
  obtain ⟨hreturned, hresponses⟩ := h.closing.ended (by rw [hret]; rfl)
  cases hpc : t.server.pc with
  | read | write =>
    rw [hpc] at hreturned
    cases hreturned
  | returned status =>
    obtain ⟨-, hrequests, hclosed⟩ := h.closing.returned hpc
    have hends := h.closing.halfClosed.mp hclosed
    have hcounter := h.writer.counter_eq h.closing.broken hends
    have hdone : t.client.writer = .done := by
      rcases hj.returned hret with hw | hw
      · exact hw
      · rcases hends with hw' | hw' <;> rw [hw] at hw' <;> cases hw'
    simp [SystemState.work, hret, hpc, hrequests, hresponses, hcounter, hdone, WriterPc.work,
      MainPc.work, ServerPc.work]

theorem length_le {as : List SystemAction}
    (h : run (systemStep P) as (.init (Disk.ofFile f) chunkSize) = some t) :
    as.length ≤ 10 * Blocks.count chunkSize.val f.bytes.length + 12 := by
  have hwork := (Reached.of_run h).work
  omega

theorem length_of_returned {as : List SystemAction}
    (h : run (systemStep P) as (.init (Disk.ofFile f) chunkSize) = some t) {allVerified : Bool}
    (hret : t.client.main = .returned allVerified) :
    as.length + 2 * (log (systemStep P) droppedId as (.init (Disk.ofFile f) chunkSize)).length =
      10 * Blocks.count chunkSize.val f.bytes.length + 12 := by
  have hinv := Reached.of_run h
  have hwork := hinv.work
  have hzero := hinv.work_eq_zero (JoinInv.of_run (run_client h)) hret
  omega

/-- No run is longer than ten steps for each chunk and twelve more, and a run in which the call
returns takes exactly that many, two less for each response that was dropped. -/
theorem length_of_run {as : List SystemAction}
    (h : run (systemStep P) as (.init (Disk.ofFile f) chunkSize) = some t) :
    as.length ≤ 10 * Blocks.count chunkSize.val f.bytes.length + 12 ∧
    ∀ allVerified, t.client.main = .returned allVerified →
      as.length +
          2 * (log (systemStep P) droppedId as (.init (Disk.ofFile f) chunkSize)).length =
        10 * Blocks.count chunkSize.val f.bytes.length + 12 :=
  ⟨length_le h, fun _ => length_of_returned h⟩

theorem length_of_run_oneChunk :
    (log (systemStep ⟨2000, 1, fun request => request.dataChunk.length⟩) droppedId
      (oneChunkRun true)
      (.init (Disk.ofFile ⟨[7], by decide⟩) ⟨1, by decide, by decide⟩)).length = 1 := by
  have hrun : (run (systemStep ⟨2000, 1, fun request => request.dataChunk.length⟩)
      (oneChunkRun true) (.init (Disk.ofFile ⟨[7], by decide⟩) ⟨1, by decide, by decide⟩)).map
      (fun t => t.client.main) = some (.returned false) := by decide +kernel
  obtain ⟨t, ht, hmain⟩ := Option.map_eq_some_iff.mp hrun
  have hlength := (length_of_run ht).2 false hmain
  have hsteps : (oneChunkRun true).length = 20 := rfl
  have hcount : Blocks.count 1 [(7 : UInt8)].length = 1 := rfl
  rw [hsteps] at hlength
  change 20 + 2 * _ = 10 * Blocks.count 1 [(7 : UInt8)].length + 12 at hlength
  rw [hcount] at hlength
  omega

/-! ### Before the call returns -/

theorem start_of_notStarted {as : List SystemAction}
    (h : run (systemStep P) as (.init (Disk.ofFile f) chunkSize) = some t)
    (hret : ∀ allVerified, t.client.main ≠ .returned allVerified)
    (hw : t.client.writer = .notStarted) : t.client.main = .start :=
  (main_of_notStarted (run_client h) hw).resolve_right (hret false)

/-- Before the call has returned, some party can take a step that is in time, or none can take
any. -/
theorem canGoOn_or_deadlocked {as : List SystemAction}
    (h : run (systemStep P) as (.init (Disk.ofFile f) chunkSize) = some t)
    (hret : ∀ allVerified, t.client.main ≠ .returned allVerified) :
    t.CanGoOn P ∨ t.Deadlocked P :=
  progress (Reached.of_run h).closing (start_of_notStarted h hret) hret

theorem SystemState.Deadlocked.mem_dropped {dropped : List ℕ} {steps : ℕ} (h : t.Deadlocked P)
    (hinv : Reached f chunkSize dropped steps t) :
    ∀ id ∈ t.client.inflightRequestsMap.keys, id ∈ dropped := by
  intro id hid
  refine (hinv.expected id (.inl (AList.mem_keys.mp hid))).resolve_left fun hmem => ?_
  rw [h.1.underWay] at hmem
  cases hmem

/-! ### How a deadlock comes about -/

/-- The response to a request is looked up before `Write` has returned. -/
theorem exists_overtaking {request : ChunkRequest} {entry : SentChunkInfo}
    (hm : s.client.main = .read) (hpc : s.client.writer = .write request entry)
    (hserver : s.server.pc = .read) (hrequests : s.requests = [request])
    (hresponses : s.responses = [])
    (hl : s.client.inflightRequestsMap.lookup (toSizeT request.clientAssignedChunkId) = none) :
    ∃ as metricsCollector count, run (systemStep P) as s = some { s with
      client := { s.client with
        totalChunksActuallySentByWriter := s.client.totalChunksActuallySentByWriter + 1
        inflightRequestsMap :=
          s.client.inflightRequestsMap.insert entry.clientAssignedId entry
        metricsCollector
        writer := .wait
        main := .read }
      server := ⟨count, .read⟩
      requests := []
      responses := [] } := by
  have hanswer : run (systemStep P)
      [.server (.read (some request)), .server (.write true)] s = some { s with
        server := ⟨s.server.serverProcessedChunkCount + 1, .read⟩
        requests := []
        responses := [request.response] } := by
    simp [run, systemStep, SystemState.offersServer, serverStep, hserver, hrequests,
      SystemState.afterServer, ServerPc.held, hresponses]
  obtain ⟨entry', hfound, -⟩ | ⟨-, message, hlost⟩ :=
    lookup_cases { s.client with
      writer := .write request entry
      main := .lookup request.response 0 } request.response 0
  · exact absurd (hl.symm.trans hfound) (by simp)
  let reads : List SystemAction :=
    [.client (.main (.read (some request.response) 0)), .client (.main .lookup),
      .client (.writer (.write true)), .client (.writer .insert)]
  refine ⟨_ ++ reads, s.client.metricsCollector.logError message,
    s.server.serverProcessedChunkCount + 1, Machine.run_trans hanswer ?_⟩
  simp [reads, run, systemStep, SystemState.offersClient, step, mainStep, writerStep, hm, hpc,
    hlost, SystemState.afterClient, ClientState.logError]

/-- A round in which the response overtakes the insertion of its request. -/
theorem exists_lost_round (hw : WriterInv f chunkSize s.client) (hidle : s.Idle)
    (hroom : s.client.HasRoom P)
    (hlt : s.client.clientChunkIdCounter < (blocks chunkSize.val f.bytes).length) :
    ∃ as t, run (systemStep P) as s = some t ∧ t.Idle ∧
      t.client.clientChunkIdCounter = s.client.clientChunkIdCounter + 1 ∧
      t.client.inflightRequestsMap.keys.length =
        s.client.inflightRequestsMap.keys.length + 1 := by
  obtain ⟨hm, hpc, hserver, hrequests, hopen, hresponses⟩ := hidle
  obtain ⟨hreader, -⟩ := by simpa only [AtWriter, hpc] using hw.pc
  obtain ⟨hend, -⟩ | ⟨-, -, request, entry, hp, hentry, -, hid⟩ :=
    @prepare_ofFile P f chunkSize { s.client with writer := .nextChunk } hreader hw.counter_le 0
  · exact absurd hend hlt.ne
  have hsend : run (systemStep P) [.client (.writer .wake), .client (.writer (.nextChunk 0))] s =
      some { s with
        client := { s.client with
          reader := s.client.reader.nextChunk.2
          clientChunkIdCounter := s.client.clientChunkIdCounter + 1
          writer := .write request entry }
        requests := [request] } := by
    simp [run, systemStep, SystemState.offersClient, step, writerStep, hpc, hroom, hp, hrequests,
      SystemState.afterClient, WriterPc.called]
  have hkey : toSizeT request.clientAssignedChunkId = s.client.clientChunkIdCounter + 1 :=
    hid ▸ toSizeT_chunkId hlt
  have hnew := hw.not_mem_keys hpc
  have hl : s.client.inflightRequestsMap.lookup (toSizeT request.clientAssignedChunkId) = none := by
    rw [hkey]
    exact AList.lookup_eq_none.mpr fun hmem => hnew (AList.mem_keys.mpr hmem)
  obtain ⟨as, m, count, hrest⟩ := @exists_overtaking P { s with
      client := { s.client with
        reader := s.client.reader.nextChunk.2
        clientChunkIdCounter := s.client.clientChunkIdCounter + 1
        writer := .write request entry }
      requests := [request] } request entry hm rfl hserver rfl hresponses hl
  refine ⟨_, _, Machine.run_trans hsend hrest, ⟨rfl, rfl, rfl, rfl, hopen, rfl⟩, rfl, ?_⟩
  have hid' : entry.clientAssignedId = s.client.clientChunkIdCounter + 1 := hentry.id_eq
  simp [AList.keys_insert, hid', List.erase_of_not_mem hnew]

/-- The responses to the first `k` chunks can all be dropped. -/
theorem exists_idle {k : ℕ} (hk : k ≤ P.maxInflightRequests)
    (hcount : k ≤ (blocks chunkSize.val f.bytes).length) :
    ∃ as t, run (systemStep P) as (.init (Disk.ofFile f) chunkSize) = some t ∧ t.Idle ∧
      t.client.clientChunkIdCounter = k ∧ t.client.inflightRequestsMap.keys.length = k := by
  induction k with
  | zero =>
    exact ⟨[.client (.main (.openStream true 0))], _, rfl, ⟨rfl, rfl, rfl, rfl, rfl, rfl⟩, rfl, rfl⟩
  | succ k ih =>
    obtain ⟨as, s, hrun, hidle, hcounter, hkeys⟩ := ih (by omega) (by omega)
    have hroom : s.client.HasRoom P := by
      show s.client.inflightRequestsMap.keys.length < P.maxInflightRequests
      omega
    obtain ⟨bs, t, hround, hidle, htcounter, htkeys⟩ :=
      exists_lost_round (Reached.of_run hrun).writer hidle hroom (by omega)
    exact ⟨as ++ bs, t, Machine.run_trans hrun hround, hidle, by omega, by omega⟩

theorem exists_deadlocked
    (hcount : P.maxInflightRequests ≤ Blocks.count chunkSize.val f.bytes.length) :
    ∃ as t, run (systemStep P) as (.init (Disk.ofFile f) chunkSize) = some t ∧
      t.Deadlocked P := by
  rw [← Blocks.length_blocks] at hcount
  obtain ⟨as, t, hrun, hidle, -, hkeys⟩ := exists_idle le_rfl hcount
  exact ⟨as, t, hrun, hidle, hkeys.ge.not_gt⟩

/-- A run that cannot go on has returned, or the writer waits for room in a map that holds
nothing but requests whose responses were dropped, and the reader for a response that does
not come. -/
theorem returned_or_deadlocked {as : List SystemAction}
    (h : run (systemStep P) as (.init (Disk.ofFile f) chunkSize) = some t)
    (hend : ∀ a, systemStep P t a = none) :
    (∃ allVerified, t.client.main = .returned allVerified) ∨
      (t.Deadlocked P ∧
        (∀ id ∈ t.client.inflightRequestsMap.keys,
          id ∈ log (systemStep P) droppedId as (.init (Disk.ofFile f) chunkSize)) ∧
        P.maxInflightRequests ≤
          (log (systemStep P) droppedId as (.init (Disk.ofFile f) chunkSize)).length) := by
  by_cases hret : ∃ allVerified, t.client.main = .returned allVerified
  · exact .inl hret
  · rcases canGoOn_or_deadlocked h (not_exists.mp hret) with ⟨a, u, hs, -⟩ | hdead
    · rw [hend a] at hs
      cases hs
    · have hdropped := hdead.mem_dropped (Reached.of_run h)
      refine .inr ⟨hdead, hdropped, ?_⟩
      calc P.maxInflightRequests
          ≤ t.client.inflightRequestsMap.keys.length := not_lt.mp hdead.2
        _ ≤ _ := (List.subperm_of_subset t.client.inflightRequestsMap.keys_nodup
            hdropped).length_le

/-- Three chunks and two places: two dropped responses are enough. -/
theorem returned_or_deadlocked_two :
    ∃ as t, run (systemStep ⟨2, 3, fun request => request.dataChunk.length⟩) as
        (.init (Disk.ofFile ⟨[1, 2, 3], by decide⟩) ⟨1, by decide, by decide⟩) = some t ∧
      t.Deadlocked ⟨2, 3, fun request => request.dataChunk.length⟩ ∧
      2 ≤ (log (systemStep ⟨2, 3, fun request => request.dataChunk.length⟩) droppedId as
        (.init (Disk.ofFile ⟨[1, 2, 3], by decide⟩) ⟨1, by decide, by decide⟩)).length := by
  obtain ⟨as, t, hrun, hdead⟩ :=
    @exists_deadlocked ⟨2, 3, fun request => request.dataChunk.length⟩ ⟨[1, 2, 3], by decide⟩
      ⟨1, by decide, by decide⟩ (by decide)
  rcases returned_or_deadlocked hrun hdead.systemStep_eq_none with ⟨b, hret⟩ | ⟨hdead, -, htwo⟩
  · rw [hdead.1.main] at hret
    cases hret
  · exact ⟨as, t, hrun, hdead, htwo⟩

/-- Some run gets stuck before the call returns exactly when the file has at least as many
chunks as the window has places. -/
theorem deadlock_iff (P : Params) (f : File) (chunkSize : ChunkSize) :
    (∃ as t, run (systemStep P) as (.init (Disk.ofFile f) chunkSize) = some t ∧
      (∀ a, systemStep P t a = none) ∧ ∀ allVerified, t.client.main ≠ .returned allVerified) ↔
    P.maxInflightRequests ≤ Blocks.count chunkSize.val f.bytes.length := by
  constructor
  · rintro ⟨as, t, hrun, hend, hret⟩
    rcases canGoOn_or_deadlocked hrun hret with ⟨a, u, hs, -⟩ | hdead
    · rw [hend a] at hs
      cases hs
    · exact (not_lt.mp hdead.2).trans (Reached.of_run hrun).writer.length_keys_le
  · intro hcount
    obtain ⟨as, t, hrun, hdead⟩ := exists_deadlocked hcount
    exact ⟨as, t, hrun, hdead.systemStep_eq_none, by simp [hdead.1.main]⟩

/-! ### Runs without a dropped response -/

theorem not_misses_iff {a : SystemAction} : ¬Misses s a ↔ droppedId s a = none := by
  simp [Misses, droppedId, Option.filter_eq_none_iff]

theorem dropped_eq_nil {as : List SystemAction}
    (h : run (systemStep P) as (.init (Disk.ofFile f) chunkSize) = some t)
    (hfound : ¬Sometime (systemStep P) Misses as (.init (Disk.ofFile f) chunkSize)) :
    log (systemStep P) droppedId as (.init (Disk.ofFile f) chunkSize) = [] := by
  induction as using List.reverseRecOn generalizing t with
  | nil => rfl
  | append_singleton as a ih =>
    obtain ⟨s, hrun, -⟩ := Machine.run_concat_eq_some.mp h
    rw [Machine.sometime_concat hrun] at hfound
    obtain ⟨hfound, hmiss⟩ := not_or.mp hfound
    rw [Machine.log_concat _ _ hrun, ih hrun hfound, not_misses_iff.mp hmiss]
    rfl

/-- While no response overtakes the insertion of its request, the call goes on to its end,
whatever the file and the window; it takes ten steps for each chunk and twelve more, and
verifies every byte. -/
theorem inTime_completes (hmax : 0 < P.maxInflightRequests) {as : List SystemAction}
    (h : run (systemStep P) as (.init (Disk.ofFile f) chunkSize) = some t)
    (hc : Along (systemStep P) InTime as (.init (Disk.ofFile f) chunkSize)) :
    ((∀ allVerified, t.client.main ≠ .returned allVerified) →
      as.length < 10 * Blocks.count chunkSize.val f.bytes.length + 12 ∧
      ∃ a u, systemStep P t a = some u ∧ InTime t a) ∧
    ∀ allVerified, t.client.main = .returned allVerified →
      as.length = 10 * Blocks.count chunkSize.val f.bytes.length + 12 ∧
      t.client.totalBytesVerifiedPayloadByReader = f.bytes.length := by
  constructor
  · intro hret
    obtain ⟨-, hfound⟩ := Delivery.of_run h hc hret
    rcases canGoOn_or_deadlocked h hret with hgo | hdead
    · obtain ⟨a, u, hs, htime⟩ := hgo
      have hlonger := length_le (Machine.run_concat_eq_some.mpr ⟨t, h, hs⟩)
      rw [List.length_append, List.length_singleton] at hlonger
      exact ⟨hlonger, a, u, hs, htime⟩
    · -- nothing was dropped, so the map is empty
      have hdropped := hdead.mem_dropped (Reached.of_run h)
      rw [dropped_eq_nil h hfound] at hdropped
      have hnil : t.client.inflightRequestsMap.keys = [] :=
        List.eq_nil_iff_forall_not_mem.mpr fun id hid => List.not_mem_nil (hdropped id hid)
      refine absurd ?_ hdead.2
      show t.client.inflightRequestsMap.keys.length < P.maxInflightRequests
      rwa [hnil]
  · intro allVerified hret
    obtain ⟨hfound, -, -, htotal, -⟩ := delivered_of_inTime h hc hret
    have hlength := length_of_returned h hret
    rw [dropped_eq_nil h hfound] at hlength
    exact ⟨hlength, htotal⟩

theorem inTime_completes_oneChunk :
    ∃ t, run (systemStep ⟨2000, 1, fun request => request.dataChunk.length⟩) (oneChunkRun false)
        (.init (Disk.ofFile ⟨[7], by decide⟩) ⟨1, by decide, by decide⟩) = some t ∧
      t.client.totalBytesVerifiedPayloadByReader = 1 := by
  let P : Params := ⟨2000, 1, fun request => request.dataChunk.length⟩
  let f : File := ⟨[7], by decide⟩
  let chunkSize : ChunkSize := ⟨1, by decide, by decide⟩
  have hrun : (run (systemStep P) (oneChunkRun false) (.init (Disk.ofFile f) chunkSize)).map
      (fun t => t.client.main) = some (.returned true) := by decide +kernel
  have hc : Along (systemStep P) InTime (oneChunkRun false)
      (.init (Disk.ofFile f) chunkSize) := by decide +kernel
  obtain ⟨t, ht, hmain⟩ := Option.map_eq_some_iff.mp hrun
  exact ⟨t, ht, ((inTime_completes (by decide) ht hc).2 true hmain).2⟩

end ReversalBench.Grpc
