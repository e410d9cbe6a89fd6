import ReversalBench.Grpc.Delivery

/-! The race between the writer and the reader of the gRPC client. The writer enters a
request in the map after `Write` has returned; a response that comes back in between is
logged as unknown and dropped, its request stays in the map, and its bytes are not
verified. This is the only way to lose a response when no stream operation fails. -/

namespace ReversalBench.Grpc

open Blocks (blocks)
open Machine (run Along Sometime)

variable {P : Params} {f : File} {chunkSize : ChunkSize} {s t : SystemState}

/-- The id that the writer is about to enter is not in the map. -/
theorem WriterInv.lookup_pending {s : ClientState} {id : ℕ} (h : WriterInv f chunkSize s)
    (hid : s.writer.pending = some id) : s.inflightRequestsMap.lookup id = none := by
  have hb : s.writerStreamBroken = false := by
    have hpc := h.pc
    cases hw : s.writer <;> simp only [hw, WriterPc.pending] at hid <;>
      simp only [AtWriter, hw] at hpc <;> first | exact hpc.2.2.1 | cases hid
  rcases h.pending hb with ⟨hnone, -⟩ | ⟨hsome, heq⟩
  · rw [hnone] at hid
    cases hid
  · rw [hsome, Option.some.injEq] at hid
    refine Option.eq_none_iff_forall_ne_some.mpr fun entry hl => ?_
    obtain ⟨-, hle⟩ := h.map hl
    omega

/-- A response that overtakes the insertion of its request is not found. -/
theorem WriterInv.misses (h : WriterInv f chunkSize s.client) {a : SystemAction}
    (hc : ¬InTime s a) : Misses s a := by
  cases hl : lookedUp s a with
  | none => exact absurd (inTime_of_none hl) hc
  | some id =>
    rw [inTime_iff hl] at hc
    exact (misses_iff hl).mpr (h.lookup_pending (not_not.mp hc))

theorem inTime_of_found {as : List SystemAction}
    (h : run (systemStep P) as (.init (Disk.ofFile f) chunkSize) = some t)
    (hfound : ¬Sometime (systemStep P) Misses as (.init (Disk.ofFile f) chunkSize)) :
    Along (systemStep P) InTime as (.init (Disk.ofFile f) chunkSize) := by
  induction as using List.reverseRecOn generalizing t with
  | nil => trivial
  | append_singleton as a ih =>
    obtain ⟨s, hrun, -⟩ := Machine.run_concat_eq_some.mp h
    rw [Machine.sometime_concat hrun] at hfound
    obtain ⟨hfound, hmiss⟩ := not_or.mp hfound
    refine (Machine.along_concat hrun).mpr ⟨ih hrun hfound, ?_⟩
    exact not_not.mp fun hc => hmiss ((WriterInv.of_run (run_client hrun)).misses hc)

/-- The final comparison after every response has been found. -/
theorem Delivery.check (h : Delivery f chunkSize s) {as : List Action}
    (hrun : run (step P) as (.init (Disk.ofFile f) chunkSize) = some s.client) {status : Status}
    (hm : s.client.main = .check status) :
    let client := s.client.check P status
    client.inflightRequestsMap.keys = [] ∧
    client.receivedResponsesCount = client.totalChunksActuallySentByWriter ∧
    client.totalBytesVerifiedPayloadByReader = f.bytes.length ∧
    (client.metricsCollector.errors = [] ↔ f.bytes.length = P.actualFileSizeBytes) := by
  intro client
  have hw := WriterInv.of_run hrun
  have hdone := (JoinInv.of_run hrun).joined (.inr (.inr ⟨status, hm⟩))
  have hinv := ErrorInv.of_run hrun (by simp [hm])
  have hno := hinv.errors.mp h.errors
  have hfin := (hinv.finished (.inr (.inr hdone))).resolve_right hno
  have hok := (hinv.status hm).resolve_right hno
  have hall : s.client.looked = (blocks chunkSize.val f.bytes).length := by
    simpa only [AtDelivery, hm] using h.pc
  have hkeys := h.keys_eq_nil hw hall
  have hsent : s.client.receivedResponsesCount = s.client.totalChunksActuallySentByWriter := by
    have hpc := hw.pc
    simp only [AtWriter, hdone] at hpc
    simp only [ClientState.looked, hm] at hall
    rw [hall, hpc.2 h.broken]
  have htotal : s.client.totalBytesVerifiedPayloadByReader = f.bytes.length := by
    have htotal := h.total
    simp only [ClientState.compared, ClientState.looked, hm] at htotal hall
    rwa [hall, List.take_length, Blocks.flatten_blocks chunkSize.pos] at htotal
  have hclient : client = s.client.check P status := rfl
  obtain ⟨-, ⟨hne, message, heq⟩ | ⟨heqsize, heq⟩⟩ | ⟨hbad, -⟩ := check_cases P s.client status
  · rw [hclient, heq]
    refine ⟨hkeys, hsent, htotal, ?_⟩
    simp [ClientState.logError, ← htotal, hne]
  · rw [hclient, heq]
    exact ⟨hkeys, hsent, htotal, by simp [h.errors, ← htotal, heqsize]⟩
  · exact absurd ⟨hfin, h.broken, hok⟩ hbad

/-- A run whose lookups are all in time loses nothing. -/
theorem delivered_of_inTime {as : List SystemAction}
    (h : run (systemStep P) as (.init (Disk.ofFile f) chunkSize) = some t)
    (hc : Along (systemStep P) InTime as (.init (Disk.ofFile f) chunkSize))
    {allVerified : Bool} (hret : t.client.main = .returned allVerified) :
    ¬Sometime (systemStep P) Misses as (.init (Disk.ofFile f) chunkSize) ∧
    t.client.inflightRequestsMap.keys = [] ∧
    t.client.receivedResponsesCount = t.client.totalChunksActuallySentByWriter ∧
    t.client.totalBytesVerifiedPayloadByReader = f.bytes.length ∧
    (t.client.metricsCollector.errors = [] ↔ f.bytes.length = P.actualFileSizeBytes) := by
  induction as using List.reverseRecOn generalizing t with
  | nil =>
    cases h
    cases hret
  | append_singleton as a ih =>
    obtain ⟨s, hrun, hs⟩ := Machine.run_concat_eq_some.mp h
    obtain ⟨hcas, hca⟩ := (Machine.along_concat hrun).mp hc
    have hclient := run_client hrun
    rw [Machine.sometime_concat hrun]
    cases a with
    | server a =>
      obtain ⟨-, server, -, rfl⟩ := server_iff.mp hs
      rw [afterServer_client] at hret ⊢
      obtain ⟨hfound, hrest⟩ := ih hrun hcas hret
      exact ⟨not_or.mpr ⟨hfound, not_misses rfl⟩, hrest⟩
    | client a =>
      obtain ⟨hoffer, client, hstep, rfl⟩ := client_iff.mp hs
      rw [afterClient_client] at hret
      have hj := JoinInv.of_run hclient
      have hsret := hj.main_ne_returned hstep
      obtain ⟨hinv, hfound⟩ := Delivery.of_run hrun hcas hsret
      cases a with
      | writer a => exact absurd ((writerStep_frame hstep).main ▸ hret) (hsret allVerified)
      | main a =>
        rcases (mainStep_enters hstep).returned hret with rfl | ⟨now, rfl⟩
        · obtain ⟨status, hm, rfl⟩ := check_iff.mp hstep
          refine ⟨not_or.mpr ⟨hfound, not_misses rfl⟩, ?_⟩
          rw [afterClient_client]
          exact hinv.check hclient hm
        · cases hoffer

/-- Every run of the client against the server, over streams that do not fail, loses
nothing and logs nothing exactly when the file has the expected size and no response is
looked up between the call of `Write` and the insertion of its request. -/
theorem no_lost_response_iff {as : List SystemAction}
    (h : run (systemStep P) as (.init (Disk.ofFile f) chunkSize) = some t)
    {allVerified : Bool} (hret : t.client.main = .returned allVerified) :
    (¬Sometime (systemStep P) Misses as (.init (Disk.ofFile f) chunkSize) ∧
      t.client.inflightRequestsMap.keys = [] ∧
      t.client.receivedResponsesCount = t.client.totalChunksActuallySentByWriter ∧
      t.client.totalBytesVerifiedPayloadByReader = f.bytes.length ∧
      t.client.metricsCollector.errors = []) ↔
    f.bytes.length = P.actualFileSizeBytes ∧
      Along (systemStep P) InTime as (.init (Disk.ofFile f) chunkSize) := by
  constructor
  · rintro ⟨hfound, -, -, -, herrors⟩
    have hc := inTime_of_found h hfound
    obtain ⟨-, -, -, -, hsize⟩ := delivered_of_inTime h hc hret
    exact ⟨hsize.mp herrors, hc⟩
  · rintro ⟨hsize, hc⟩
    obtain ⟨hfound, hkeys, hsent, htotal, herrors⟩ := delivered_of_inTime h hc hret
    exact ⟨hfound, hkeys, hsent, htotal, herrors.mpr hsize⟩

/-- One chunk is sent and answered; its response is read before the writer enters the
request in the map, or after. -/
def oneChunkRun (early : Bool) : List SystemAction :=
  [.client (.main (.openStream true 0)), .client (.writer .wake),
    .client (.writer (.nextChunk 0)), .server (.read (some ⟨[7], 1⟩)), .server (.write true),
    .client (.main (.read (some ⟨[7], 1⟩) 0))] ++
  (if early then
    [.client (.main .lookup), .client (.writer (.write true)), .client (.writer .insert)]
  else
    [.client (.writer (.write true)), .client (.writer .insert), .client (.main .lookup),
      .client (.main .account), .client (.main .verify)]) ++
  [.client (.writer .wake), .client (.writer (.nextChunk 0)), .client (.writer .finish),
    .client (.writer (.writesDone true)), .client (.writer .notifyAll), .server (.read none),
    .client (.main (.read none 0)), .client (.main .join), .client (.main .leftover),
    .client (.main (.finish ⟨0, ""⟩ 0)), .client (.main .check)]

theorem no_lost_response_iff_oneChunk :
    ∃ t, run (systemStep ⟨2000, 1, fun request => request.dataChunk.length⟩) (oneChunkRun false)
        (.init (Disk.ofFile ⟨[7], by decide⟩) ⟨1, by decide, by decide⟩) = some t ∧
      t.client.totalBytesVerifiedPayloadByReader = 1 ∧ t.client.metricsCollector.errors = [] := by
  let P : Params := ⟨2000, 1, fun request => request.dataChunk.length⟩
  let f : File := ⟨[7], by decide⟩
  let chunkSize : ChunkSize := ⟨1, by decide, by decide⟩
  have hrun : (run (systemStep P) (oneChunkRun false) (.init (Disk.ofFile f) chunkSize)).map
      (fun t => t.client.main) = some (.returned true) := by decide +kernel
  have hc : Along (systemStep P) InTime (oneChunkRun false)
      (.init (Disk.ofFile f) chunkSize) := by decide +kernel
  obtain ⟨t, ht, hmain⟩ := Option.map_eq_some_iff.mp hrun
  obtain ⟨-, -, -, htotal, herrors⟩ := (no_lost_response_iff ht hmain).mpr ⟨rfl, hc⟩
  exact ⟨t, ht, htotal, herrors⟩

theorem response_lost :
    ∃ t, run (systemStep ⟨2000, 1, fun request => request.dataChunk.length⟩) (oneChunkRun true)
        (.init (Disk.ofFile ⟨[7], by decide⟩) ⟨1, by decide, by decide⟩) = some t ∧
      t.client.main = .returned false ∧ t.client.inflightRequestsMap.keys = [1] ∧
      t.client.receivedResponsesCount = 0 ∧ t.client.totalChunksActuallySentByWriter = 1 ∧
      t.client.totalBytesVerifiedPayloadByReader = 0 ∧
      t.client.metricsCollector.errors.length = 3 := by
  have hrun : (run (systemStep ⟨2000, 1, fun request => request.dataChunk.length⟩)
      (oneChunkRun true) (.init (Disk.ofFile ⟨[7], by decide⟩) ⟨1, by decide, by decide⟩)).map
      (fun t => (t.client.main, t.client.inflightRequestsMap.keys, t.client.receivedResponsesCount,
        t.client.totalChunksActuallySentByWriter, t.client.totalBytesVerifiedPayloadByReader,
        t.client.metricsCollector.errors.length)) =
      some (.returned false, [1], 0, 1, 0, 3) := by decide +kernel
  obtain ⟨t, ht, heq⟩ := Option.map_eq_some_iff.mp hrun
  simp only [Prod.mk.injEq] at heq
  exact ⟨t, ht, heq⟩

end ReversalBench.Grpc
