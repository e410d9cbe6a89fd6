import ReversalBench.Grpc.Race
import ReversalBench.Grpc.Shutdown

/-! The work that is left for the gRPC client and server, over streams that do not fail.
Every step takes one off, and a response that is not found takes off two more, for the
steps that would have processed it. The streams are closed in turn: the writer closes the
one of the requests, then the server returns, then the read loop ends. -/

namespace ReversalBench.Grpc

open Blocks (blocks)

variable {P : Params} {f : File} {chunkSize : ChunkSize} {s t : SystemState}

/-! ### The work that is left -/

/-- The steps of the writer that are left, with `unread` chunks still to be read. -/
def WriterPc.work (unread : ℕ) : WriterPc → ℕ
  | .notStarted | .wait => 4 * unread + 5
  | .nextChunk => 4 * unread + 4
  | .write _ _ => 4 * unread + 7
  | .insert _ => 4 * unread + 6
  | .finish => 3
  | .writesDone => 2
  | .notifyAll => 1
  | .done => 0

/-- The steps of the reader that are left, the responses apart that it has not read. -/
def MainPc.work : MainPc → ℕ
  | .start => 6
  | .read => 5
  | .lookup _ _ => 8
  | .account _ _ _ => 7
  | .verify _ _ => 6
  | .join => 4
  | .leftover => 3
  | .finish => 2
  | .check _ => 1
  | .returned _ => 0

/-- The steps that are left for the request of the server and its response, and the end of
the call. -/
def ServerPc.work : ServerPc → ℕ
  | .read => 1
  | .write _ => 6
  | .returned _ => 0

/-- The work that is left: a request costs two steps of the server, a response four of the
reader. -/
def SystemState.work (f : File) (chunkSize : ChunkSize) (s : SystemState) : ℕ :=
  let unread := (blocks chunkSize.val f.bytes).length - s.client.clientChunkIdCounter
  s.client.writer.work unread + s.client.main.work + s.server.pc.work +
    6 * (unread + s.requests.length) + 4 * s.responses.length

/-- The id of a response that is looked up and not found. -/
def droppedId (s : SystemState) (a : SystemAction) : Option ℕ :=
  (lookedUp s a).filter fun id => (s.client.inflightRequestsMap.lookup id).isNone

theorem droppedId_eq_none {a : SystemAction} (h : lookedUp s a = none) : droppedId s a = none := by
  simp [droppedId, h]

theorem droppedId_lookup {response : ChunkResponse} {now : ℤ}
    (hm : s.client.main = .lookup response now) :
    droppedId s (.client (.main .lookup)) =
      if s.client.inflightRequestsMap.lookup (toSizeT response.originalClientChunkId) = none then
        some (toSizeT response.originalClientChunkId)
      else none := by
  simp [droppedId, lookedUp, hm, Option.filter_some]

/-! ### What the steps of the server do -/

theorem server_cases {a : ServerAction} (hs : systemStep P s (.server a) = some t) :
    (∃ request count, s.server.pc = .read ∧ s.requests.head? = some request ∧
      t = { s with server := ⟨count, .write request.response⟩, requests := s.requests.tail }) ∨
    (s.server.pc = .read ∧ s.requests = [] ∧ s.halfClosed = true ∧
      t = { s with server := { s.server with pc := .returned ⟨0, ""⟩ }, requests := [] }) ∨
    (∃ response, s.server.pc = .write response ∧
      t = { s with
        server := { s.server with pc := .read }
        responses := s.responses ++ [response] }) := by
  obtain ⟨hoffer, server, hstep, rfl⟩ := server_iff.mp hs
  cases hpc : s.server.pc with
  | returned status => cases a <;> simp [serverStep, hpc] at hstep
  | read =>
    cases a with
    | write ok => simp [serverStep, hpc] at hstep
    | read request =>
      cases request with
      | some request =>
        simp only [serverStep, hpc, Option.some.injEq] at hstep
        subst hstep
        exact .inl ⟨request, _, rfl, beq_iff_eq.mp hoffer, rfl⟩
      | none =>
        simp only [serverStep, hpc, Option.some.injEq] at hstep
        subst hstep
        obtain ⟨hnil, hclosed⟩ := Bool.and_eq_true_iff.mp hoffer
        have hnil := List.isEmpty_iff.mp hnil
        exact .inr (.inl ⟨rfl, hnil, hclosed, by simp [SystemState.afterServer, hnil]⟩)
  | write response =>
    cases a with
    | read request => simp [serverStep, hpc] at hstep
    | write ok =>
      have hok : ok = true := hoffer
      simp only [serverStep, hpc, hok, if_true, Option.some.injEq] at hstep
      subst hstep
      exact .inr (.inr ⟨response, rfl, by simp [SystemState.afterServer, hpc, ServerPc.held]⟩)

/-! ### One step -/

theorem work_server {a : ServerAction} (hs : systemStep P s (.server a) = some t) :
    t.work f chunkSize + 1 = s.work f chunkSize := by
  rcases server_cases hs with ⟨request, count, hpc, hhead, rfl⟩ | ⟨hpc, hnil, -, rfl⟩ |
    ⟨response, hpc, rfl⟩
  · obtain ⟨rest, hrest⟩ := List.head?_eq_some_iff.mp hhead
    simp only [SystemState.work, hpc, hrest, ServerPc.work, List.tail_cons, List.length_cons]
    omega
  · simp only [SystemState.work, hpc, hnil, ServerPc.work]
    omega
  · simp only [SystemState.work, hpc, ServerPc.work, List.length_append, List.length_singleton]
    omega

theorem WriterInv.work_writer {a : WriterAction} (h : WriterInv f chunkSize s.client)
    (hb : s.client.writerStreamBroken = false)
    (hs : systemStep P s (.client (.writer a)) = some t) :
    t.work f chunkSize + 1 = s.work f chunkSize := by
  obtain ⟨hoffer, client, hstep, rfl⟩ := client_writer_iff.mp hs
  cases a with
  | wake =>
    obtain ⟨hw, -, rfl⟩ := wake_iff.mp hstep
    simp only [SystemState.work, SystemState.afterClient, hw, WriterPc.work]
    omega
  | nextChunk now =>
    obtain ⟨hw, rfl⟩ := nextChunk_iff.mp hstep
    obtain ⟨hreader, -⟩ := by simpa only [AtWriter, hw] using h.pc
    rcases @prepare_ofFile P _ _ _ hreader h.counter_le now with
      ⟨hend, hp⟩ | ⟨hlt, -, request, entry, hp, -⟩
    · simp only [SystemState.work, SystemState.afterClient, hw, hp, hend, WriterPc.work,
        WriterPc.called, List.append_nil]
      omega
    · simp only [SystemState.work, SystemState.afterClient, hw, hp, WriterPc.work,
        WriterPc.called, List.length_append, List.length_singleton]
      omega
  | throws what => cases hoffer
  | write ok =>
    have hok : ok = true := hoffer
    subst hok
    obtain ⟨request, entry, hw, rfl⟩ := write_iff.mp hstep
    simp only [SystemState.work, SystemState.afterClient, hw, WriterPc.work, if_true]
    omega
  | insert =>
    obtain ⟨entry, hw, rfl⟩ := insert_iff.mp hstep
    simp only [SystemState.work, SystemState.afterClient, hw, WriterPc.work]
    omega
  | finish =>
    obtain ⟨hw, rfl⟩ := writer_finish_iff.mp hstep
    simp only [SystemState.work, SystemState.afterClient, hw, hb, WriterPc.work,
      Bool.false_eq_true, if_false]
    omega
  | writesDone ok =>
    obtain ⟨hw, rfl⟩ := writesDone_iff.mp hstep
    simp only [SystemState.work, SystemState.afterClient, hw, WriterPc.work]
    omega
  | notifyAll =>
    obtain ⟨hw, rfl⟩ := notifyAll_iff.mp hstep
    simp only [SystemState.work, SystemState.afterClient, hw, WriterPc.work]
    omega

theorem WriterInv.work_main {a : MainAction} (h : WriterInv f chunkSize s.client)
    (hs : systemStep P s (.client (.main a)) = some t) :
    t.work f chunkSize + 1 + 2 * (droppedId s (.client (.main a))).toList.length =
      s.work f chunkSize := by
  obtain ⟨hoffer, client, hstep, rfl⟩ := client_main_iff.mp hs
  by_cases hlookup : a = .lookup
  · subst hlookup
    obtain ⟨response, now, hm, rfl⟩ := lookup_iff.mp hstep
    rw [droppedId_lookup hm]
    rcases lookup_cases s.client response now with ⟨entry, hl, heq⟩ | ⟨hl, message, heq⟩
    · simp [SystemState.work, SystemState.afterClient, heq, hm, hl, MainPc.work]
      omega
    · simp [SystemState.work, SystemState.afterClient, heq, hm, hl, MainPc.work,
        ClientState.logError]
      omega
  rw [droppedId_eq_none (lookedUp_eq_none s hlookup)]
  cases a with
  | lookup => exact absurd rfl hlookup
  | throws what => cases hoffer
  | openStream ok now =>
    have hok : ok = true := hoffer
    subst hok
    obtain ⟨hm, rfl⟩ := openStream_iff.mp hstep
    have hw := h.start hm
    simp [SystemState.work, SystemState.afterClient, hm, hw, MainPc.work, WriterPc.work]
    omega
  | read response now =>
    obtain ⟨hm, rfl⟩ := read_iff.mp hstep
    cases response with
    | some response =>
      obtain ⟨rest, hrest⟩ : ∃ rest, s.responses = response :: rest :=
        List.head?_eq_some_iff.mp (beq_iff_eq.mp hoffer)
      simp [SystemState.work, SystemState.afterClient, hm, hrest, MainPc.work]
      omega
    | none =>
      obtain ⟨hnil, -⟩ := Bool.and_eq_true_iff.mp hoffer
      have hnil := List.isEmpty_iff.mp hnil
      simp [SystemState.work, SystemState.afterClient, hm, hnil, MainPc.work]
      omega
  | account =>
    obtain ⟨_, _, _, hm, rfl⟩ := account_iff.mp hstep
    simp [SystemState.work, SystemState.afterClient, hm, ClientState.account, MainPc.work]
    omega
  | verify =>
    obtain ⟨entry, response, hm, rfl⟩ := verify_iff.mp hstep
    rcases verify_cases s.client entry response with ⟨-, heq⟩ | ⟨-, message, heq⟩ <;>
      simp [SystemState.work, SystemState.afterClient, hm, heq, ClientState.logError,
        MainPc.work] <;> omega
  | join =>
    obtain ⟨hm, -, rfl⟩ := join_iff.mp hstep
    simp [SystemState.work, SystemState.afterClient, hm, MainPc.work]
    omega
  | leftover =>
    obtain ⟨hm, rfl⟩ := leftover_iff.mp hstep
    rcases leftover_cases s.client with ⟨-, heq⟩ | ⟨-, message, heq⟩ <;>
      simp [SystemState.work, SystemState.afterClient, hm, heq, ClientState.logError,
        MainPc.work] <;> omega
  | finish status now =>
    obtain ⟨hm, rfl⟩ := main_finish_iff.mp hstep
    obtain ⟨m, -, ⟨-, heq⟩ | ⟨-, message, heq⟩⟩ := finish_cases s.client status now <;>
      simp [SystemState.work, SystemState.afterClient, hm, heq, MainPc.work] <;> omega
  | check =>
    obtain ⟨status, hm, rfl⟩ := check_iff.mp hstep
    obtain ⟨-, ⟨-, message, heq⟩ | ⟨-, heq⟩⟩ | ⟨-, heq⟩ := check_cases P s.client status <;>
      simp [SystemState.work, SystemState.afterClient, hm, heq, ClientState.logError,
        MainPc.work] <;> omega

/-- Every step takes one off the work that is left; a response that is not found takes off
two more. -/
theorem WriterInv.work_step {a : SystemAction} (h : WriterInv f chunkSize s.client)
    (hb : s.client.writerStreamBroken = false) (hs : systemStep P s a = some t) :
    t.work f chunkSize + 1 + 2 * (droppedId s a).toList.length = s.work f chunkSize := by
  cases a with
  | server a => exact work_server hs
  | client a =>
    cases a with
    | writer a => exact h.work_writer hb hs
    | main a => exact h.work_main hs

/-! ### Closing the streams -/

/-- The read loop is over. -/
def MainPc.pastLoop : MainPc → Bool
  | .join | .leftover | .finish | .check _ | .returned _ => true
  | _ => false

/-- The stream of requests is closed by the writer, then the server returns, then the read
loop ends. -/
structure Closing (s : SystemState) : Prop where
  broken : s.client.writerStreamBroken = false
  halfClosed : s.halfClosed = true ↔ s.client.writer = .notifyAll ∨ s.client.writer = .done
  returned : ∀ {status}, s.server.pc = .returned status →
    status = ⟨0, ""⟩ ∧ s.requests = [] ∧ s.halfClosed = true
  ended : s.client.main.pastLoop = true → s.server.pc.hasReturned = true ∧ s.responses = []

theorem closing_init (disk : Disk) (chunkSize : ChunkSize) : Closing (.init disk chunkSize) where
  broken := rfl
  halfClosed := by simp [SystemState.init, ClientState.init]
  returned h := by simp [SystemState.init, ServerState.init] at h
  ended h := by simp [SystemState.init, ClientState.init, MainPc.pastLoop] at h

theorem Closing.of_server {a : ServerAction} (h : Closing s)
    (hs : systemStep P s (.server a) = some t) : Closing t := by
  have hended : s.server.pc.hasReturned = false → ¬s.client.main.pastLoop = true :=
    fun hpc hm => by simp [(h.ended hm).1] at hpc
  rcases server_cases hs with ⟨request, count, hpc, -, rfl⟩ | ⟨hpc, hnil, hclosed, rfl⟩ |
    ⟨response, hpc, rfl⟩
  · exact ⟨h.broken, h.halfClosed, ServerPc.noConfusion,
      fun hm => absurd hm (hended (by rw [hpc]; rfl))⟩
  · refine ⟨h.broken, h.halfClosed, fun hret => ?_,
      fun hm => absurd hm (hended (by rw [hpc]; rfl))⟩
    cases hret
    exact ⟨rfl, rfl, hclosed⟩
  · exact ⟨h.broken, h.halfClosed, ServerPc.noConfusion,
      fun hm => absurd hm (hended (by rw [hpc]; rfl))⟩

/-- A step of the writer with the stream of requests open. -/
theorem Closing.of_open (h : Closing s) (hopen : s.halfClosed = false) {client : ClientState}
    {requests : List ChunkRequest} {halfClosed : Bool} (hm : client.main = s.client.main)
    (hb : client.writerStreamBroken = false)
    (hclosed : halfClosed = true ↔ client.writer = .notifyAll ∨ client.writer = .done) :
    Closing { s with client, requests, halfClosed } where
  broken := hb
  halfClosed := hclosed
  returned hret := by simp [(h.returned hret).2.2] at hopen
  ended hpast := h.ended (hm ▸ hpast)

theorem Closing.of_writer {a : WriterAction} (h : Closing s)
    (hw : WriterInv f chunkSize s.client)
    (hs : systemStep P s (.client (.writer a)) = some t) : Closing t := by
  obtain ⟨hoffer, client, hstep, rfl⟩ := client_writer_iff.mp hs
  have hm := (writerStep_frame hstep).main
  have hopen : s.client.writer ≠ .notifyAll → s.client.writer ≠ .done → s.halfClosed = false :=
    fun hn hd => Bool.not_eq_true _ ▸ fun hclosed => (h.halfClosed.mp hclosed).elim hn hd
  cases a with
  | wake =>
    obtain ⟨hpc, -, rfl⟩ := wake_iff.mp hstep
    have hopen := hopen (by simp [hpc]) (by simp [hpc])
    exact h.of_open hopen rfl h.broken (by simp [hopen])
  | nextChunk now =>
    obtain ⟨hpc, rfl⟩ := nextChunk_iff.mp hstep
    have hopen := hopen (by simp [hpc]) (by simp [hpc])
    obtain ⟨hreader, -⟩ := by simpa only [AtWriter, hpc] using hw.pc
    rcases @prepare_ofFile P _ _ _ hreader hw.counter_le now with
      ⟨-, hp⟩ | ⟨-, -, request, entry, hp, -⟩
    · rw [hp]
      exact h.of_open hopen rfl h.broken (by simp [hopen])
    · rw [hp]
      exact h.of_open hopen rfl h.broken (by simp [hopen])
  | throws what => cases hoffer
  | write ok =>
    have hok : ok = true := hoffer
    subst hok
    obtain ⟨request, entry, hpc, rfl⟩ := write_iff.mp hstep
    have hopen := hopen (by simp [hpc]) (by simp [hpc])
    exact h.of_open hopen rfl h.broken (by simp [hopen])
  | insert =>
    obtain ⟨entry, hpc, rfl⟩ := insert_iff.mp hstep
    have hopen := hopen (by simp [hpc]) (by simp [hpc])
    exact h.of_open hopen rfl h.broken (by simp [hopen])
  | finish =>
    obtain ⟨hpc, rfl⟩ := writer_finish_iff.mp hstep
    have hopen := hopen (by simp [hpc]) (by simp [hpc])
    exact h.of_open hopen rfl h.broken (by simp [hopen, h.broken])
  | writesDone ok =>
    obtain ⟨hpc, rfl⟩ := writesDone_iff.mp hstep
    have hopen := hopen (by simp [hpc]) (by simp [hpc])
    exact h.of_open hopen rfl h.broken (by simp)
  | notifyAll =>
    obtain ⟨hpc, rfl⟩ := notifyAll_iff.mp hstep
    exact ⟨h.broken, by simp [SystemState.afterClient, h.halfClosed, hpc], h.returned, h.ended⟩

/-- A step of the reader enters what follows the read loop only with the end of the stream. -/
theorem pastLoop_main {a : MainAction} (hs : systemStep P s (.client (.main a)) = some t)
    (hpast : t.client.main.pastLoop = true) :
    t.server = s.server ∧
      (s.client.main.pastLoop = true ∧ t.responses = s.responses ∨
        s.server.pc.hasReturned = true ∧ t.responses = []) := by
  obtain ⟨hoffer, client, hstep, rfl⟩ := client_main_iff.mp hs
  rw [afterClient_client] at hpast
  cases a with
  | openStream ok now =>
    have hok : ok = true := hoffer
    subst hok
    obtain ⟨-, rfl⟩ := openStream_iff.mp hstep
    cases hpast
  | read response now =>
    obtain ⟨-, rfl⟩ := read_iff.mp hstep
    cases response with
    | some response => cases hpast
    | none =>
      obtain ⟨hnil, hreturned⟩ := Bool.and_eq_true_iff.mp hoffer
      exact ⟨rfl, .inr ⟨hreturned, by simp [SystemState.afterClient, List.isEmpty_iff.mp hnil]⟩⟩
  | throws what => cases hoffer
  | lookup =>
    obtain ⟨response, now, -, rfl⟩ := lookup_iff.mp hstep
    rcases lookup_cases s.client response now with ⟨entry, -, heq⟩ | ⟨-, message, heq⟩ <;>
      rw [heq] at hpast <;> cases hpast
  | account =>
    obtain ⟨_, _, _, -, rfl⟩ := account_iff.mp hstep
    cases hpast
  | verify =>
    obtain ⟨entry, response, -, rfl⟩ := verify_iff.mp hstep
    rcases verify_cases s.client entry response with ⟨-, heq⟩ | ⟨-, message, heq⟩ <;>
      rw [heq] at hpast <;> cases hpast
  | join =>
    obtain ⟨hm, -⟩ := join_iff.mp hstep
    exact ⟨rfl, .inl ⟨by simp [hm, MainPc.pastLoop], rfl⟩⟩
  | leftover =>
    obtain ⟨hm, -⟩ := leftover_iff.mp hstep
    exact ⟨rfl, .inl ⟨by simp [hm, MainPc.pastLoop], rfl⟩⟩
  | finish status now =>
    obtain ⟨hm, -⟩ := main_finish_iff.mp hstep
    exact ⟨rfl, .inl ⟨by simp [hm, MainPc.pastLoop], rfl⟩⟩
  | check =>
    obtain ⟨status, hm, -⟩ := check_iff.mp hstep
    exact ⟨rfl, .inl ⟨by simp [hm, MainPc.pastLoop], rfl⟩⟩

/-- A step of the reader touches neither the server nor the stream of requests. -/
theorem streams_main {a : MainAction} (hs : systemStep P s (.client (.main a)) = some t) :
    t.server = s.server ∧ t.requests = s.requests ∧ t.halfClosed = s.halfClosed := by
  obtain ⟨-, client, -, rfl⟩ := client_main_iff.mp hs
  cases a <;> exact ⟨rfl, rfl, rfl⟩

theorem Closing.of_main {a : MainAction} (h : Closing s) (hw : WriterInv f chunkSize s.client)
    (hs : systemStep P s (.client (.main a)) = some t) : Closing t := by
  obtain ⟨hserver, hrequests, hclosed⟩ := streams_main hs
  obtain ⟨-, client, hstep, heq⟩ := client_main_iff.mp hs
  have hclient : t.client = client := heq ▸ afterClient_client s client (.main a)
  have hframe := mainStep_frame hstep
  refine ⟨?_, ?_, fun hret => ?_, fun hpast => ?_⟩
  · rw [hclient, hframe.broken]
    exact h.broken
  · rw [hclosed, hclient, h.halfClosed]
    rcases hframe.writer with hwriter | ⟨hm, hwait⟩
    · rw [hwriter]
    · simp [hwait, hw.start hm]
  · rw [hserver] at hret
    rw [hrequests, hclosed]
    exact h.returned hret
  · rw [hserver]
    obtain ⟨-, ⟨hs, hsame⟩ | ⟨hreturned, hnil⟩⟩ := pastLoop_main hs hpast
    · rw [hsame]
      exact h.ended hs
    · exact ⟨hreturned, hnil⟩

theorem Closing.of_step {a : SystemAction} (h : Closing s) (hw : WriterInv f chunkSize s.client)
    (hs : systemStep P s a = some t) : Closing t := by
  cases a with
  | server a => exact h.of_server hs
  | client a =>
    cases a with
    | writer a => exact h.of_writer hw hs
    | main a => exact h.of_main hw hs

end ReversalBench.Grpc
