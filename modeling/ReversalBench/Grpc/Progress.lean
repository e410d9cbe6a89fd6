import ReversalBench.Grpc.Work

/-! How far the gRPC client and server get, over streams that do not fail. A request in the
map has its response under way, unless the response was dropped. Some party can always take
a step, until the call returns or the writer waits for room in the map while nothing is
under way. -/

namespace ReversalBench.Grpc

open Blocks (blocks)
open Machine (run log)

variable {P : Params} {f : File} {chunkSize : ChunkSize} {s t : SystemState}

/-! ### The requests in the map -/

/-- The ids of the responses that the client has still to look up. -/
def SystemState.underWay (s : SystemState) : List ℕ :=
  s.transit.map fun response => toSizeT response.originalClientChunkId

/-- The writer has called `Write` for the request and the reader has not removed it. -/
def ClientState.Awaits (s : ClientState) (id : ℕ) : Prop :=
  id ∈ s.inflightRequestsMap ∨ s.writer.pending = some id

/-- The ids of the chunks of a file fit in a request. -/
theorem toSizeT_chunkId {id : ℕ} (h : id ≤ (blocks chunkSize.val f.bytes).length) :
    toSizeT (Int64.ofNat id) = id := by
  have hlen := f.length_lt
  have hcount := Blocks.count_le chunkSize.pos f.bytes.length
  rw [Blocks.length_blocks] at h
  exact toSizeT_ofNat (by omega)

/-- The response to each request that is waited for is under way, or was dropped. -/
def Expected (dropped : List ℕ) (s : SystemState) : Prop :=
  ∀ id, s.client.Awaits id → id ∈ s.underWay ∨ id ∈ dropped

theorem expected_init (disk : Disk) (chunkSize : ChunkSize) :
    Expected [] (.init disk chunkSize) := by
  intro id hid
  simp [SystemState.init, ClientState.init, ClientState.Awaits, WriterPc.pending] at hid

variable {dropped : List ℕ}

theorem Expected.mono (h : Expected dropped s)
    (hawaits : ∀ id, t.client.Awaits id → s.client.Awaits id) (hway : s.underWay ⊆ t.underWay) :
    Expected dropped t :=
  fun id hid => (h id (hawaits id hid)).imp_left fun hmem => hway hmem

/-- The server moves the responses along. -/
theorem transit_server {a : ServerAction} (hs : systemStep P s (.server a) = some t) :
    t.transit = s.transit := by
  rcases server_cases hs with ⟨request, count, hpc, hhead, rfl⟩ | ⟨hpc, hnil, -, rfl⟩ |
    ⟨response, hpc, rfl⟩
  · obtain ⟨rest, hrest⟩ := List.head?_eq_some_iff.mp hhead
    simp [SystemState.transit, hpc, hrest, ServerPc.held]
  · simp [SystemState.transit, hpc, hnil, ServerPc.held]
  · simp [SystemState.transit, hpc, ServerPc.held]

/-- The reader takes a response off by looking it up. -/
theorem transit_lookup (hs : systemStep P s (.client (.main .lookup)) = some t) :
    ∃ response now, s.client.main = .lookup response now ∧ s.transit = response :: t.transit := by
  obtain ⟨-, client, hstep, rfl⟩ := client_main_iff.mp hs
  obtain ⟨response, now, hm, rfl⟩ := lookup_iff.mp hstep
  refine ⟨response, now, hm, ?_⟩
  rcases lookup_cases s.client response now with ⟨entry, -, heq⟩ | ⟨-, message, heq⟩ <;>
    simp [SystemState.transit, SystemState.afterClient, hm, heq, MainPc.held]

theorem transit_main {a : MainAction} (ha : a ≠ .lookup)
    (hs : systemStep P s (.client (.main a)) = some t) : t.transit = s.transit := by
  obtain ⟨hoffer, client, hstep, rfl⟩ := client_main_iff.mp hs
  cases a with
  | lookup => exact absurd rfl ha
  | throws what => cases hoffer
  | openStream ok now =>
    have hok : ok = true := hoffer
    subst hok
    obtain ⟨hm, rfl⟩ := openStream_iff.mp hstep
    simp [SystemState.transit, SystemState.afterClient, hm, MainPc.held]
  | read response now =>
    obtain ⟨hm, rfl⟩ := read_iff.mp hstep
    cases response with
    | some response =>
      obtain ⟨rest, hrest⟩ : ∃ rest, s.responses = response :: rest :=
        List.head?_eq_some_iff.mp (beq_iff_eq.mp hoffer)
      simp [SystemState.transit, SystemState.afterClient, hm, hrest, MainPc.held]
    | none =>
      obtain ⟨hnil, -⟩ := Bool.and_eq_true_iff.mp hoffer
      have hnil := List.isEmpty_iff.mp hnil
      simp [SystemState.transit, SystemState.afterClient, hm, hnil, MainPc.held]
  | account =>
    obtain ⟨_, _, _, hm, rfl⟩ := account_iff.mp hstep
    simp [SystemState.transit, SystemState.afterClient, hm, ClientState.account, MainPc.held]
  | verify =>
    obtain ⟨entry, response, hm, rfl⟩ := verify_iff.mp hstep
    rcases verify_cases s.client entry response with ⟨-, heq⟩ | ⟨-, message, heq⟩ <;>
      simp [SystemState.transit, SystemState.afterClient, hm, heq, MainPc.held]
  | join =>
    obtain ⟨hm, -, rfl⟩ := join_iff.mp hstep
    simp [SystemState.transit, SystemState.afterClient, hm, MainPc.held]
  | leftover =>
    obtain ⟨hm, rfl⟩ := leftover_iff.mp hstep
    rcases leftover_cases s.client with ⟨-, heq⟩ | ⟨-, message, heq⟩ <;>
      simp [SystemState.transit, SystemState.afterClient, hm, heq, MainPc.held]
  | finish status now =>
    obtain ⟨hm, rfl⟩ := main_finish_iff.mp hstep
    obtain ⟨m, -, ⟨-, heq⟩ | ⟨-, message, heq⟩⟩ := finish_cases s.client status now <;>
      simp [SystemState.transit, SystemState.afterClient, hm, heq, MainPc.held]
  | check =>
    obtain ⟨status, hm, rfl⟩ := check_iff.mp hstep
    obtain ⟨-, ⟨-, message, heq⟩ | ⟨-, heq⟩⟩ | ⟨-, heq⟩ := check_cases P s.client status <;>
      simp [SystemState.transit, SystemState.afterClient, hm, heq, MainPc.held]

theorem Expected.of_server {a : ServerAction} (h : Expected dropped s)
    (hs : systemStep P s (.server a) = some t) : Expected dropped t := by
  have htransit := transit_server hs
  obtain ⟨-, server, -, rfl⟩ := server_iff.mp hs
  refine h.mono (by simp) ?_
  rw [SystemState.underWay, SystemState.underWay, htransit]
  exact List.Subset.refl _

theorem Expected.of_writer {a : WriterAction} (h : Expected dropped s)
    (hw : WriterInv f chunkSize s.client)
    (hs : systemStep P s (.client (.writer a)) = some t) : Expected dropped t := by
  obtain ⟨hoffer, client, hstep, rfl⟩ := client_writer_iff.mp hs
  cases a with
  | wake =>
    obtain ⟨hpc, -, rfl⟩ := wake_iff.mp hstep
    exact h.mono (by simp [SystemState.afterClient, ClientState.Awaits, WriterPc.pending, hpc])
      (List.Subset.refl _)
  | nextChunk now =>
    obtain ⟨hpc, rfl⟩ := nextChunk_iff.mp hstep
    obtain ⟨hreader, -⟩ := by simpa only [AtWriter, hpc] using hw.pc
    rcases @prepare_ofFile P _ _ _ hreader hw.counter_le now with
      ⟨-, hp⟩ | ⟨hlt, -, request, entry, hp, hentry, -, hid⟩
    · refine h.mono ?_ ?_
      · simp [SystemState.afterClient, hp, ClientState.Awaits, WriterPc.pending, hpc]
      · simp [SystemState.underWay, SystemState.transit, SystemState.afterClient, hp,
          WriterPc.called]
    · -- the response to the new request is the last one under way
      have hnew : toSizeT request.clientAssignedChunkId = entry.clientAssignedId := by
        rw [hid, hentry.id_eq]
        exact toSizeT_chunkId hlt
      have hway : (s.afterClient (s.client.prepare P now) (.writer (.nextChunk now))).underWay =
          s.underWay ++ [entry.clientAssignedId] := by
        simp [SystemState.underWay, SystemState.transit, SystemState.afterClient, hp,
          WriterPc.called, ChunkRequest.response, hnew]
      intro id hawaits
      rw [hway, List.mem_append, List.mem_singleton]
      rw [afterClient_client, hp] at hawaits
      rcases hawaits with hmem | hpending
      · exact (h id (.inl hmem)).imp_left .inl
      · exact .inl (.inr (Option.some.inj hpending).symm)
  | throws what => cases hoffer
  | write ok =>
    have hok : ok = true := hoffer
    subst hok
    obtain ⟨request, entry, hpc, rfl⟩ := write_iff.mp hstep
    exact h.mono (by simp [SystemState.afterClient, ClientState.Awaits, WriterPc.pending, hpc])
      (List.Subset.refl _)
  | insert =>
    obtain ⟨entry, hpc, rfl⟩ := insert_iff.mp hstep
    refine h.mono (fun id hawaits => ?_) (List.Subset.refl _)
    rcases hawaits with hmem | hpending
    · rcases (AList.mem_insert _).mp hmem with rfl | hmem
      · exact .inr (by rw [hpc]; rfl)
      · exact .inl hmem
    · cases hpending
  | finish =>
    obtain ⟨hpc, rfl⟩ := writer_finish_iff.mp hstep
    refine h.mono (fun id hawaits => ?_) (List.Subset.refl _)
    cases hb : s.client.writerStreamBroken <;>
      simpa [SystemState.afterClient, ClientState.Awaits, WriterPc.pending, hpc, hb] using hawaits
  | writesDone ok =>
    obtain ⟨hpc, rfl⟩ := writesDone_iff.mp hstep
    exact h.mono (by simp [SystemState.afterClient, ClientState.Awaits, WriterPc.pending, hpc])
      (List.Subset.refl _)
  | notifyAll =>
    obtain ⟨hpc, rfl⟩ := notifyAll_iff.mp hstep
    exact h.mono (by simp [SystemState.afterClient, ClientState.Awaits, WriterPc.pending, hpc])
      (List.Subset.refl _)

/-- The reader waits for no request that it has not waited for before. -/
theorem awaits_main {a : MainAction} (hs : systemStep P s (.client (.main a)) = some t) {id : ℕ}
    (h : t.client.Awaits id) : s.client.Awaits id := by
  obtain ⟨-, client, hstep, rfl⟩ := client_main_iff.mp hs
  rw [afterClient_client] at h
  have hframe := mainStep_frame hstep
  rcases h with hmem | hpending
  · obtain ⟨entry, hl⟩ := Option.isSome_iff_exists.mp (AList.lookup_isSome.mpr hmem)
    exact .inl (AList.lookup_isSome.mp (by rw [hframe.lookup hl]; rfl))
  · rcases hframe.writer with heq | ⟨-, hwait⟩
    · exact .inr (heq ▸ hpending)
    · rw [hwait] at hpending
      cases hpending

theorem Expected.of_lookup (h : Expected dropped s) (hw : WriterInv f chunkSize s.client)
    (hs : systemStep P s (.client (.main .lookup)) = some t) :
    Expected (dropped ++ (droppedId s (.client (.main .lookup))).toList) t := by
  obtain ⟨response, now, hm, htransit⟩ := transit_lookup hs
  have hway : s.underWay = toSizeT response.originalClientChunkId :: t.underWay := by
    simp [SystemState.underWay, htransit]
  rw [droppedId_lookup hm]
  intro id hawaits
  rcases h id (awaits_main hs hawaits) with hmem | hmem
  · rcases List.mem_cons.mp (hway ▸ hmem) with rfl | hmem
    · -- the response of the request itself: it was not found, or the request has left the map
      obtain ⟨-, client, hstep, rfl⟩ := client_main_iff.mp hs
      obtain ⟨response', now', hm', rfl⟩ := lookup_iff.mp hstep
      rw [hm] at hm'
      cases hm'
      rcases lookup_cases s.client response now with ⟨entry, hl, heq⟩ | ⟨hl, -⟩
      · rw [afterClient_client, heq] at hawaits
        rcases hawaits with hmem | hpending
        · exact absurd rfl (AList.mem_erase.mp hmem).1
        · rw [hw.lookup_pending hpending] at hl
          cases hl
      · exact .inr (by simp [hl])
    · exact .inl hmem
  · exact .inr (List.mem_append_left _ hmem)

theorem Expected.of_step {a : SystemAction} (h : Expected dropped s)
    (hw : WriterInv f chunkSize s.client) (hs : systemStep P s a = some t) :
    Expected (dropped ++ (droppedId s a).toList) t := by
  cases a with
  | server a => simpa [droppedId, lookedUp] using h.of_server hs
  | client a =>
    cases a with
    | writer a => simpa [droppedId, lookedUp] using h.of_writer hw hs
    | main a =>
      by_cases ha : a = .lookup
      · subst ha
        exact h.of_lookup hw hs
      · rw [droppedId_eq_none (lookedUp_eq_none s ha), Option.toList_none, List.append_nil]
        refine h.mono (fun id => awaits_main hs) ?_
        rw [SystemState.underWay, SystemState.underWay, transit_main ha hs]
        exact List.Subset.refl _

/-! ### Runs -/

/-- What holds in every state of a run. -/
structure Reached (f : File) (chunkSize : ChunkSize) (dropped : List ℕ) (steps : ℕ)
    (s : SystemState) : Prop where
  writer : WriterInv f chunkSize s.client
  closing : Closing s
  expected : Expected dropped s
  work : steps + 2 * dropped.length + s.work f chunkSize =
    10 * Blocks.count chunkSize.val f.bytes.length + 12

theorem Reached.of_run {as : List SystemAction}
    (h : run (systemStep P) as (.init (Disk.ofFile f) chunkSize) = some t) :
    Reached f chunkSize (log (systemStep P) droppedId as (.init (Disk.ofFile f) chunkSize))
      as.length t := by
  refine Machine.run_induction (P := fun as t => Reached f chunkSize
    (log (systemStep P) droppedId as (.init (Disk.ofFile f) chunkSize)) as.length t) ?_ ?_ as t h
  · refine ⟨writerInv_init f chunkSize, closing_init _ chunkSize, expected_init _ chunkSize, ?_⟩
    simp [SystemState.work, SystemState.init, ClientState.init, ServerState.init, WriterPc.work,
      MainPc.work, ServerPc.work]
    omega
  · intro as s a t hrun hinv hs
    obtain ⟨hwriter, hclosing, hexpected, hwork⟩ := hinv
    have hstep := hwriter.work_step hclosing.broken hs
    rw [Machine.log_concat _ _ hrun]
    refine ⟨.of_run (run_client (Machine.run_concat_eq_some.mpr ⟨s, hrun, hs⟩)),
      hclosing.of_step hwriter hs, hexpected.of_step hwriter hs, ?_⟩
    simp only [List.length_append, List.length_singleton]
    omega

/-- The writer waits at the map, the reader for a response, and nothing is under way. -/
structure SystemState.Idle (s : SystemState) : Prop where
  main : s.client.main = .read
  writer : s.client.writer = .wait
  server : s.server.pc = .read
  requests : s.requests = []
  halfClosed : s.halfClosed = false
  responses : s.responses = []

/-- The map has no room, and nothing is under way that would make any. -/
def SystemState.Deadlocked (P : Params) (s : SystemState) : Prop :=
  s.Idle ∧ ¬s.client.HasRoom P

theorem SystemState.Deadlocked.systemStep_eq_none (h : s.Deadlocked P) (a : SystemAction) :
    systemStep P s a = none := by
  obtain ⟨⟨hm, hw, hpc, hrequests, hclosed, hresponses⟩, hfull⟩ := h
  cases a with
  | server a =>
    cases a with
    | read request =>
      cases request <;> simp [systemStep, SystemState.offersServer, hrequests, hclosed]
    | write ok => simp [systemStep, serverStep, hpc]
  | client a =>
    cases a with
    | writer a =>
      cases a <;> simp [systemStep, step, writerStep, hw, hfull, WriterPc.inLoop]
    | main a =>
      cases a with
      | read response now =>
        cases response <;>
          simp [systemStep, SystemState.offersClient, hresponses, hpc, ServerPc.hasReturned]
      | throws what => simp [systemStep, SystemState.offersClient]
      | _ => simp [systemStep, step, mainStep, hm]

theorem SystemState.Idle.underWay (h : s.Idle) : s.underWay = [] := by
  simp [SystemState.underWay, SystemState.transit, h.main, h.server, h.requests, h.responses,
    MainPc.held, ServerPc.held]

/-! ### Progress -/

/-- Some party can take a step that is in time. -/
def SystemState.CanGoOn (P : Params) (s : SystemState) : Prop :=
  ∃ a t, systemStep P s a = some t ∧ InTime s a

theorem canGoOn_of_writer (a : WriterAction) {client : ClientState}
    (hoffer : s.offersClient (.writer a) = true) (hstep : writerStep P s.client a = some client) :
    s.CanGoOn P :=
  ⟨.client (.writer a), _, client_writer_iff.mpr ⟨hoffer, client, hstep, rfl⟩, inTime_of_none rfl⟩

theorem canGoOn_of_main (a : MainAction) {client : ClientState}
    (hoffer : s.offersClient (.main a) = true) (hstep : mainStep P s.client a = some client)
    (htime : InTime s (.client (.main a))) : s.CanGoOn P :=
  ⟨.client (.main a), _, client_main_iff.mpr ⟨hoffer, client, hstep, rfl⟩, htime⟩

theorem canGoOn_of_server (a : ServerAction) {server : ServerState}
    (hoffer : s.offersServer a = true) (hstep : serverStep s.server a = some server) :
    s.CanGoOn P :=
  ⟨.server a, _, server_iff.mpr ⟨hoffer, server, hstep, rfl⟩, inTime_of_none rfl⟩

/-- The writer goes on between its start and its end, unless it waits for room. -/
theorem canGoOn_writer (hstarted : s.client.writer ≠ .notStarted)
    (hdone : s.client.writer ≠ .done)
    (hroom : s.client.writer = .wait → s.client.HasRoom P) : s.CanGoOn P := by
  cases hw : s.client.writer with
  | notStarted => exact absurd hw hstarted
  | wait => exact canGoOn_of_writer .wake rfl (wake_iff.mpr ⟨hw, hroom hw, rfl⟩)
  | nextChunk => exact canGoOn_of_writer (.nextChunk 0) rfl (nextChunk_iff.mpr ⟨hw, rfl⟩)
  | write request entry =>
    exact canGoOn_of_writer (.write true) rfl (write_iff.mpr ⟨request, entry, hw, rfl⟩)
  | insert entry => exact canGoOn_of_writer .insert rfl (insert_iff.mpr ⟨entry, hw, rfl⟩)
  | finish => exact canGoOn_of_writer .finish rfl (writer_finish_iff.mpr ⟨hw, rfl⟩)
  | writesDone => exact canGoOn_of_writer (.writesDone true) rfl (writesDone_iff.mpr ⟨hw, rfl⟩)
  | notifyAll => exact canGoOn_of_writer .notifyAll rfl (notifyAll_iff.mpr ⟨hw, rfl⟩)
  | done => exact absurd hw hdone

/-- The server goes on when it has a response to write, a request to read, or the end of the
stream to read. -/
theorem canGoOn_server (hpc : s.server.pc.hasReturned = false)
    (hwork : s.server.pc = .read → s.requests ≠ [] ∨ s.halfClosed = true) : s.CanGoOn P := by
  cases hserver : s.server.pc with
  | returned status =>
    rw [hserver] at hpc
    cases hpc
  | write response =>
    exact @canGoOn_of_server P s (.write true) { s.server with pc := .read } rfl
      (by simp [serverStep, hserver])
  | read =>
    cases hrequests : s.requests with
    | nil =>
      have hclosed : s.halfClosed = true :=
        (hwork hserver).resolve_left fun hne => hne hrequests
      refine @canGoOn_of_server P s (.read none) { s.server with pc := .returned ⟨0, ""⟩ }
        ?_ (by simp [serverStep, hserver])
      simp [SystemState.offersServer, hrequests, hclosed]
    | cons request rest =>
      refine @canGoOn_of_server P s (.read (some request))
        ⟨s.server.serverProcessedChunkCount + 1, .write request.response⟩
        ?_ (by simp [serverStep, hserver])
      simp [SystemState.offersServer, hrequests]

/-- The read loop goes on while the streams hold anything, or waits for the writer. -/
theorem progress_read (hc : Closing s) (hm : s.client.main = .read)
    (hstarted : s.client.writer ≠ .notStarted) : s.CanGoOn P ∨ s.Deadlocked P := by
  by_contra hno
  obtain ⟨hstuck, hdead⟩ := not_or.mp hno
  have hread : ∀ response, s.offersClient (.main (.read response 0)) = false := fun response => by
    by_contra hoffer
    exact hstuck (canGoOn_of_main (.read response 0) (Bool.not_eq_false _ ▸ hoffer)
      (read_iff.mpr ⟨hm, rfl⟩) (inTime_of_none rfl))
  have hresponses : s.responses = [] := by
    cases hrs : s.responses with
    | nil => rfl
    | cons response rest => simpa [SystemState.offersClient, hrs] using hread (some response)
  have hreturned : s.server.pc.hasReturned = false := by
    simpa [SystemState.offersClient, hresponses] using hread none
  have hserver : s.server.pc = .read ∧ s.requests = [] ∧ s.halfClosed = false := by
    by_contra hwork
    refine hstuck (canGoOn_server hreturned fun hpc => ?_)
    by_contra hidle
    obtain ⟨hnil, hopen⟩ := not_or.mp hidle
    exact hwork ⟨hpc, not_not.mp hnil, Bool.not_eq_true _ ▸ hopen⟩
  obtain ⟨hpc, hrequests, hopen⟩ := hserver
  have hrunning : ¬(s.client.writer = .notifyAll ∨ s.client.writer = .done) := by
    rw [← hc.halfClosed, hopen]
    exact Bool.false_ne_true
  have hwait : s.client.writer = .wait ∧ ¬s.client.HasRoom P := by
    by_contra hroom
    refine hstuck (canGoOn_writer hstarted (fun hdone => hrunning (.inr hdone)) fun hw => ?_)
    exact not_not.mp fun hfull => hroom ⟨hw, hfull⟩
  exact hdead ⟨⟨hm, hwait.1, hpc, hrequests, hopen, hresponses⟩, hwait.2⟩

/-- Something can happen that is in time, until the call returns or everything waits. -/
theorem progress (hc : Closing s)
    (hstart : s.client.writer = .notStarted → s.client.main = .start)
    (hret : ∀ allVerified, s.client.main ≠ .returned allVerified) :
    s.CanGoOn P ∨ s.Deadlocked P := by
  have hstarted : s.client.main ≠ .start → s.client.writer ≠ .notStarted :=
    fun hm hw => hm (hstart hw)
  cases hm : s.client.main with
  | start =>
    exact .inl (canGoOn_of_main (.openStream true 0) rfl (openStream_iff.mpr ⟨hm, rfl⟩)
      (inTime_of_none rfl))
  | read => exact progress_read hc hm (hstarted (by simp [hm]))
  | lookup response now =>
    refine .inl ?_
    by_cases htime : InTime s (.client (.main .lookup))
    · exact canGoOn_of_main .lookup rfl (lookup_iff.mpr ⟨response, now, hm, rfl⟩) htime
    · -- the writer is about to enter the request
      have hpending : s.client.writer.pending =
          some (toSizeT response.originalClientChunkId) := by
        have hlookedUp : lookedUp s (.client (.main .lookup)) =
            some (toSizeT response.originalClientChunkId) := by simp [lookedUp, hm]
        exact not_not.mp fun hne => htime ((inTime_iff hlookedUp).mpr hne)
      cases hw : s.client.writer with
      | write | insert => exact canGoOn_writer (by simp [hw]) (by simp [hw]) (by simp [hw])
      | _ => simp [hw, WriterPc.pending] at hpending
  | account entry response now =>
    exact .inl (canGoOn_of_main .account rfl (account_iff.mpr ⟨entry, response, now, hm, rfl⟩)
      (inTime_of_none rfl))
  | verify entry response =>
    exact .inl (canGoOn_of_main .verify rfl (verify_iff.mpr ⟨entry, response, hm, rfl⟩)
      (inTime_of_none rfl))
  | join =>
    refine .inl ?_
    obtain ⟨hreturned, -⟩ := hc.ended (by rw [hm]; rfl)
    cases hpc : s.server.pc with
    | read | write =>
      rw [hpc] at hreturned
      cases hreturned
    | returned status =>
      rcases hc.halfClosed.mp (hc.returned hpc).2.2 with hw | hw
      · exact canGoOn_writer (by simp [hw]) (by simp [hw]) (by simp [hw])
      · exact canGoOn_of_main .join rfl (join_iff.mpr ⟨hm, hw, rfl⟩) (inTime_of_none rfl)
  | leftover =>
    exact .inl (canGoOn_of_main .leftover rfl (leftover_iff.mpr ⟨hm, rfl⟩) (inTime_of_none rfl))
  | finish =>
    refine .inl ?_
    obtain ⟨hreturned, -⟩ := hc.ended (by rw [hm]; rfl)
    cases hpc : s.server.pc with
    | read | write =>
      rw [hpc] at hreturned
      cases hreturned
    | returned status =>
      exact canGoOn_of_main (.finish status 0) (by simp [SystemState.offersClient, hpc])
        (main_finish_iff.mpr ⟨hm, rfl⟩) (inTime_of_none rfl)
  | check status =>
    exact .inl (canGoOn_of_main .check rfl (check_iff.mpr ⟨status, hm, rfl⟩) (inTime_of_none rfl))
  | returned allVerified => exact absurd hm (hret allVerified)

end ReversalBench.Grpc
