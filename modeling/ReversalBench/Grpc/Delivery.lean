import ReversalBench.Grpc.System
import ReversalBench.Grpc.Errors

/-! Which responses of the gRPC server the client loses. The requests, the server and the
responses are one queue: what is under way is the part of the answers between the last
response looked up and the last chunk written. A response finds its request in the map
unless it overtakes the insertion. -/

namespace ReversalBench.Grpc

open Blocks (blocks)
open Machine (run Along Sometime)

variable {P : Params} {f : File} {chunkSize : ChunkSize} {s t : SystemState}

/-! ### The queue -/

/-- The responses of the server to the chunks of a file. -/
def answers (f : File) (chunkSize : ChunkSize) : List ChunkResponse :=
  (blocks chunkSize.val f.bytes).mapIdx fun i chunk => ⟨reverseBytes chunk, Int64.ofNat (i + 1)⟩

@[simp] theorem length_answers (f : File) (chunkSize : ChunkSize) :
    (answers f chunkSize).length = (blocks chunkSize.val f.bytes).length := by
  simp [answers]

theorem getElem?_answers {i : ℕ} (h : i < (blocks chunkSize.val f.bytes).length) :
    (answers f chunkSize)[i]? =
      some ⟨reverseBytes (blocks chunkSize.val f.bytes)[i], Int64.ofNat (i + 1)⟩ := by
  simp [answers, List.getElem?_eq_getElem h]

/-- The response that the reader holds and has not looked up. -/
def MainPc.held : MainPc → List ChunkResponse
  | .lookup response _ => [response]
  | _ => []

/-- The responses that the client has still to look up, for the requests written. -/
def SystemState.transit (s : SystemState) : List ChunkResponse :=
  s.client.main.held ++ s.responses ++ s.server.pc.held ++ s.requests.map ChunkRequest.response

/-- How many responses have been looked up, if each was found. -/
def ClientState.looked (s : ClientState) : ℕ :=
  match s.main with
  | .account _ _ _ => s.receivedResponsesCount + 1
  | _ => s.receivedResponsesCount

/-- How many chunks have been compared. -/
def ClientState.compared (s : ClientState) : ℕ :=
  match s.main with
  | .verify _ _ => s.receivedResponsesCount - 1
  | _ => s.receivedResponsesCount

/-- What holds at the program counter of the reader. -/
def AtDelivery (f : File) (chunkSize : ChunkSize) (s : ClientState) : Prop :=
  match s.main with
  | .account entry response _ | .verify entry response =>
    IsEntry f chunkSize s.looked entry ∧
      response.reversedChunkData = entry.originalDataForVerification.reverse
  | .join | .leftover | .finish | .check _ => s.looked = (blocks chunkSize.val f.bytes).length
  | _ => True

/-- The invariant of the system while every response has been found. -/
structure Delivery (f : File) (chunkSize : ChunkSize) (s : SystemState) : Prop where
  errors : s.client.metricsCollector.errors = []
  broken : s.client.writerStreamBroken = false
  transit : s.transit =
    ((answers f chunkSize).take s.client.clientChunkIdCounter).drop s.client.looked
  looked_le : s.client.looked ≤ s.client.inserted
  map : ∀ id, id ∈ s.client.inflightRequestsMap ↔ s.client.looked < id ∧ id ≤ s.client.inserted
  pc : AtDelivery f chunkSize s.client
  total : s.client.totalBytesVerifiedPayloadByReader =
    ((blocks chunkSize.val f.bytes).take s.client.compared).flatten.length
  halfClosed : s.halfClosed = true → s.client.writer = .notifyAll ∨ s.client.writer = .done
  returned : ∀ {status}, s.server.pc = .returned status →
    status = ⟨0, ""⟩ ∧ s.requests = [] ∧ s.halfClosed = true

theorem delivery_init (f : File) (chunkSize : ChunkSize) :
    Delivery f chunkSize (.init (Disk.ofFile f) chunkSize) where
  errors := rfl
  broken := rfl
  transit := by simp [SystemState.transit, SystemState.init, ClientState.init, MainPc.held,
    ServerPc.held, ServerState.init]
  looked_le := le_rfl
  map id := by
    simp [SystemState.init, ClientState.init, ClientState.looked, ClientState.inserted]
    omega
  pc := trivial
  total := by simp [SystemState.init, ClientState.init, ClientState.compared]
  halfClosed := Bool.noConfusion
  returned := ServerPc.noConfusion

/-! ### Steps of the server -/

/-- A step of the server moves a response along the queue, or ends the call. -/
theorem Delivery.of_streams (h : Delivery f chunkSize s) (hclient : t.client = s.client)
    (htransit : t.transit = s.transit) (hclosed : t.halfClosed = s.halfClosed)
    (hreturned : ∀ {status}, t.server.pc = .returned status →
      status = ⟨0, ""⟩ ∧ t.requests = [] ∧ t.halfClosed = true) : Delivery f chunkSize t := by
  constructor
  · rw [hclient]
    exact h.errors
  · rw [hclient]
    exact h.broken
  · rw [hclient, htransit]
    exact h.transit
  · rw [hclient]
    exact h.looked_le
  · rw [hclient]
    exact h.map
  · rw [hclient]
    exact h.pc
  · rw [hclient]
    exact h.total
  · rw [hclient, hclosed]
    exact h.halfClosed
  · exact hreturned

theorem Delivery.of_server {a : ServerAction} (h : Delivery f chunkSize s)
    (hs : systemStep P s (.server a) = some t) : Delivery f chunkSize t := by
  obtain ⟨hoffer, server, hstep, rfl⟩ := server_iff.mp hs
  cases hpc : s.server.pc with
  | returned status => cases a <;> simp [serverStep, hpc] at hstep
  | read =>
    cases a with
    | write ok => simp [serverStep, hpc] at hstep
    | read request =>
      cases request with
      | some request =>
        simp only [serverStep, hpc, Option.some.injEq] at hstep
        subst hstep
        obtain ⟨rest, hrest⟩ : ∃ rest, s.requests = request :: rest :=
          List.head?_eq_some_iff.mp (beq_iff_eq.mp hoffer)
        refine h.of_streams rfl ?_ rfl ServerPc.noConfusion
        simp [SystemState.transit, SystemState.afterServer, hpc, hrest, ServerPc.held]
      | none =>
        simp only [serverStep, hpc, Option.some.injEq] at hstep
        subst hstep
        obtain ⟨hnil, hclosed⟩ := Bool.and_eq_true_iff.mp hoffer
        have hnil := List.isEmpty_iff.mp hnil
        refine h.of_streams rfl ?_ rfl fun hret => ?_
        · simp [SystemState.transit, SystemState.afterServer, hpc, hnil, ServerPc.held]
        · cases hret
          exact ⟨rfl, by simp [SystemState.afterServer, hnil], hclosed⟩
  | write response =>
    cases a with
    | read request => simp [serverStep, hpc] at hstep
    | write ok =>
      have hok : ok = true := hoffer
      simp only [serverStep, hpc, hok, if_true, Option.some.injEq] at hstep
      subst hstep
      refine h.of_streams rfl ?_ rfl ServerPc.noConfusion
      simp [SystemState.transit, SystemState.afterServer, hpc, ServerPc.held]

/-! ### Steps of the writer -/

/-- The stream of requests is open until the writer has called `WritesDone`. -/
theorem Delivery.not_halfClosed (h : Delivery f chunkSize s)
    (hw : s.client.writer ≠ .notifyAll) (hw' : s.client.writer ≠ .done) :
    ¬s.halfClosed = true :=
  fun hhalf => (h.halfClosed hhalf).elim hw hw'

theorem WriterFrame.looked {s t : ClientState} (h : WriterFrame s t) : t.looked = s.looked := by
  simp only [ClientState.looked, h.main, h.received]

theorem WriterFrame.compared {s t : ClientState} (h : WriterFrame s t) :
    t.compared = s.compared := by
  simp only [ClientState.compared, h.main, h.received]

theorem WriterFrame.atDelivery {s t : ClientState} (h : WriterFrame s t) :
    AtDelivery f chunkSize t = AtDelivery f chunkSize s := by
  simp only [AtDelivery, h.main, h.looked]

/-- A step of the writer that neither calls `Write` nor enters a request. -/
theorem Delivery.of_writer_frame (h : Delivery f chunkSize s) {client : ClientState}
    {halfClosed : Bool} (hframe : WriterFrame s.client client)
    (herrors : client.metricsCollector = s.client.metricsCollector)
    (hbroken : client.writerStreamBroken = s.client.writerStreamBroken)
    (hcounter : client.clientChunkIdCounter = s.client.clientChunkIdCounter)
    (hinserted : client.inserted = s.client.inserted)
    (hmap : client.inflightRequestsMap = s.client.inflightRequestsMap)
    (hkeep : s.halfClosed = true → halfClosed = true)
    (hclosed : halfClosed = true → client.writer = .notifyAll ∨ client.writer = .done) :
    Delivery f chunkSize { s with client, halfClosed } := by
  constructor
  · exact herrors ▸ h.errors
  · exact hbroken.trans h.broken
  · show client.main.held ++ s.responses ++ s.server.pc.held ++ _ = _
    rw [hframe.main, hcounter, hframe.looked]
    exact h.transit
  · rw [hinserted, hframe.looked]
    exact h.looked_le
  · rw [hinserted, hframe.looked, hmap]
    exact h.map
  · rw [hframe.atDelivery]
    exact h.pc
  · rw [hframe.total, hframe.compared]
    exact h.total
  · exact hclosed
  · intro status hret
    obtain ⟨hstatus, hnil, hhalf⟩ := h.returned hret
    exact ⟨hstatus, hnil, hkeep hhalf⟩

/-- `Write` puts the answer to the next chunk under way. -/
theorem Delivery.of_nextChunk {now : ℤ} (h : Delivery f chunkSize s)
    (hw : WriterInv f chunkSize s.client)
    (hs : systemStep P s (.client (.writer (.nextChunk now))) = some t) :
    Delivery f chunkSize t := by
  obtain ⟨-, client, hstep, rfl⟩ := client_writer_iff.mp hs
  have hframe := writerStep_frame hstep
  obtain ⟨hpc, rfl⟩ := nextChunk_iff.mp hstep
  have hopen := h.not_halfClosed (by simp [hpc]) (by simp [hpc])
  obtain ⟨hreader, hsent, -⟩ := by simpa only [AtWriter, hpc] using hw.pc
  rcases @prepare_ofFile P _ _ _ hreader hw.counter_le now with
    ⟨-, hp⟩ | ⟨hlt, -, request, entry, hp, hentry, hdata, hid⟩
  · rw [hp] at hframe ⊢
    simp only [SystemState.afterClient, WriterPc.called, List.append_nil]
    exact h.of_writer_frame hframe rfl rfl rfl (by simp [ClientState.inserted, hpc]) rfl id
      fun hhalf => absurd hhalf hopen
  · rw [hp] at hframe ⊢
    have hinserted : s.client.inserted = s.client.clientChunkIdCounter := by
      simpa only [ClientState.inserted, hpc] using hsent
    have hresponse : (answers f chunkSize)[s.client.clientChunkIdCounter]? =
        some request.response := by
      obtain ⟨_, hget⟩ := List.getElem?_eq_some_iff.mp hentry.data
      rw [getElem?_answers hlt, ChunkRequest.response, hid, hdata, ← hget]
      rfl
    have htransit : s.transit ++ [request.response] =
        ((answers f chunkSize).take (s.client.clientChunkIdCounter + 1)).drop s.client.looked := by
      rw [List.take_add_one, hresponse, Option.toList_some, List.drop_append_of_le_length,
        h.transit]
      rw [List.length_take, length_answers, min_eq_left hlt.le]
      exact hinserted ▸ h.looked_le
    constructor
    · exact h.errors
    · exact h.broken
    · rw [← hframe.looked] at htransit
      simpa [SystemState.transit, SystemState.afterClient, WriterPc.called] using htransit
    · have hle := h.looked_le
      simp only [ClientState.inserted, hpc] at hle
      exact hle
    · have hmap := h.map
      simp only [ClientState.inserted, hpc] at hmap
      exact hmap
    · exact h.pc
    · exact h.total
    · exact fun hhalf => absurd hhalf hopen
    · exact fun hret => absurd (h.returned hret).2.2 hopen

theorem Delivery.of_insert (h : Delivery f chunkSize s) (hw : WriterInv f chunkSize s.client)
    (hs : systemStep P s (.client (.writer .insert)) = some t) : Delivery f chunkSize t := by
  obtain ⟨-, client, hstep, rfl⟩ := client_writer_iff.mp hs
  obtain ⟨entry, hpc, rfl⟩ := insert_iff.mp hstep
  obtain ⟨-, hsent, -, hentry⟩ := by simpa only [AtWriter, hpc] using hw.pc
  have hinserted : s.client.inserted + 1 = s.client.totalChunksActuallySentByWriter := by
    have hpos := hentry.pos
    simp only [ClientState.inserted, hpc]
    omega
  have hopen := h.not_halfClosed (by simp [hpc]) (by simp [hpc])
  constructor
  · exact h.errors
  · exact h.broken
  · exact h.transit
  · exact h.looked_le.trans (Nat.le_of_succ_le hinserted.le)
  · intro id
    have hle := h.looked_le
    have hmap := h.map id
    have hid := hentry.id_eq
    show id ∈ s.client.inflightRequestsMap.insert entry.clientAssignedId entry ↔
      s.client.looked < id ∧ id ≤ s.client.totalChunksActuallySentByWriter
    rw [AList.mem_insert, hmap]
    omega
  · exact h.pc
  · exact h.total
  · exact fun hhalf => absurd hhalf hopen
  · exact h.returned

theorem Delivery.of_writer {a : WriterAction} (h : Delivery f chunkSize s)
    (hw : WriterInv f chunkSize s.client)
    (hs : systemStep P s (.client (.writer a)) = some t) : Delivery f chunkSize t := by
  cases a with
  | nextChunk now => exact h.of_nextChunk hw hs
  | insert => exact h.of_insert hw hs
  | wake =>
    obtain ⟨-, client, hstep, rfl⟩ := client_writer_iff.mp hs
    have hframe := writerStep_frame hstep
    obtain ⟨hpc, -, rfl⟩ := wake_iff.mp hstep
    have hopen := h.not_halfClosed (by simp [hpc]) (by simp [hpc])
    exact h.of_writer_frame hframe rfl rfl rfl (by simp [ClientState.inserted, hpc]) rfl id
      fun hhalf => absurd hhalf hopen
  | throws what =>
    obtain ⟨hoffer, -⟩ := client_writer_iff.mp hs
    cases hoffer
  | write ok =>
    obtain ⟨hoffer, client, hstep, rfl⟩ := client_writer_iff.mp hs
    have hok : ok = true := hoffer
    subst hok
    have hframe := writerStep_frame hstep
    obtain ⟨request, entry, hpc, rfl⟩ := write_iff.mp hstep
    have hopen := h.not_halfClosed (by simp [hpc]) (by simp [hpc])
    exact h.of_writer_frame hframe rfl rfl rfl (by simp [ClientState.inserted, hpc]) rfl id
      fun hhalf => absurd hhalf hopen
  | finish =>
    obtain ⟨-, client, hstep, rfl⟩ := client_writer_iff.mp hs
    have hframe := writerStep_frame hstep
    obtain ⟨hpc, rfl⟩ := writer_finish_iff.mp hstep
    have hopen := h.not_halfClosed (by simp [hpc]) (by simp [hpc])
    exact h.of_writer_frame hframe rfl rfl rfl
      (by simp [ClientState.inserted, hpc, h.broken]) rfl id fun hhalf => absurd hhalf hopen
  | writesDone ok =>
    obtain ⟨-, client, hstep, rfl⟩ := client_writer_iff.mp hs
    have hframe := writerStep_frame hstep
    obtain ⟨hpc, rfl⟩ := writesDone_iff.mp hstep
    exact h.of_writer_frame hframe rfl rfl rfl (by simp [ClientState.inserted, hpc]) rfl
      (fun _ => rfl) fun _ => .inl rfl
  | notifyAll =>
    obtain ⟨-, client, hstep, rfl⟩ := client_writer_iff.mp hs
    have hframe := writerStep_frame hstep
    obtain ⟨hpc, rfl⟩ := notifyAll_iff.mp hstep
    exact h.of_writer_frame hframe rfl rfl rfl (by simp [ClientState.inserted, hpc]) rfl id
      fun _ => .inr rfl

/-! ### Steps of the reader -/

/-- A writer that has ended without a failure has sent every chunk. -/
theorem WriterInv.counter_eq {s : ClientState} (h : WriterInv f chunkSize s)
    (hb : s.writerStreamBroken = false) (hw : s.writer = .notifyAll ∨ s.writer = .done) :
    s.clientChunkIdCounter = (blocks chunkSize.val f.bytes).length := by
  have hle := h.counter_le
  have hpc : s.totalChunksActuallySentByWriter ≤ s.clientChunkIdCounter ∧
      s.totalChunksActuallySentByWriter = (blocks chunkSize.val f.bytes).length := by
    rcases hw with hw | hw <;> simpa [AtWriter, hw, hb] using h.pc
  omega

/-- A step of the reader that neither takes a response out of the queue nor changes the
map. -/
theorem Delivery.of_main_frame (h : Delivery f chunkSize s) (hw : WriterInv f chunkSize s.client)
    {a : MainAction} {client : ClientState} {responses : List ChunkResponse}
    (hstep : mainStep P s.client a = some client)
    (herrors : client.metricsCollector.errors = s.client.metricsCollector.errors)
    (hlooked : client.looked = s.client.looked)
    (htransit : client.main.held ++ responses = s.client.main.held ++ s.responses)
    (hmap : client.inflightRequestsMap = s.client.inflightRequestsMap)
    (hpc : AtDelivery f chunkSize client)
    (htotal : client.totalBytesVerifiedPayloadByReader =
      ((blocks chunkSize.val f.bytes).take client.compared).flatten.length) :
    Delivery f chunkSize { s with client, responses } := by
  have hframe := mainStep_frame hstep
  have hinserted := hw.inserted_mainStep hstep
  constructor
  · exact herrors.trans h.errors
  · exact hframe.broken.trans h.broken
  · show client.main.held ++ responses ++ s.server.pc.held ++ _ = _
    rw [htransit, hframe.counter, hlooked]
    exact h.transit
  · rw [hinserted, hlooked]
    exact h.looked_le
  · rw [hinserted, hlooked, hmap]
    exact h.map
  · exact hpc
  · exact htotal
  · intro hhalf
    rcases hframe.writer with heq | ⟨hstart, -⟩
    · exact heq ▸ h.halfClosed hhalf
    · have hns := hw.start hstart
      exact absurd hhalf (h.not_halfClosed (by simp [hns]) (by simp [hns]))
  · exact h.returned

/-- Everything written is entered in the map, the chunk apart that the writer is about to
enter. -/
theorem WriterInv.pending {s : ClientState} (h : WriterInv f chunkSize s)
    (hb : s.writerStreamBroken = false) :
    (s.writer.pending = none ∧ s.inserted = s.clientChunkIdCounter) ∨
      (s.writer.pending = some s.clientChunkIdCounter ∧
        s.inserted + 1 = s.clientChunkIdCounter) := by
  have hpc := h.pc
  have hle := h.counter_le
  cases hw : s.writer with
  | write request entry =>
    simp only [AtWriter, hw] at hpc
    obtain ⟨-, hsent, -, hentry, -⟩ := hpc
    exact .inr ⟨congrArg some hentry.id_eq, by simpa only [ClientState.inserted, hw] using hsent⟩
  | insert entry =>
    simp only [AtWriter, hw] at hpc
    obtain ⟨-, hsent, -, hentry⟩ := hpc
    have hpos := hentry.pos
    refine .inr ⟨congrArg some hentry.id_eq, ?_⟩
    simp only [ClientState.inserted, hw]
    omega
  | notStarted | wait | nextChunk =>
    simp only [AtWriter, hw] at hpc
    exact .inl ⟨rfl, by simpa only [ClientState.inserted, hw] using hpc.2.1⟩
  | finish | writesDone | notifyAll | done =>
    simp only [AtWriter, hw] at hpc
    have := hpc.2 hb
    refine .inl ⟨rfl, ?_⟩
    simp only [ClientState.inserted, hw]
    omega

/-- The response at the head of the queue answers the next chunk. -/
theorem Delivery.head (h : Delivery f chunkSize s) {response : ChunkResponse} {now : ℤ}
    (hm : s.client.main = .lookup response now) :
    s.client.looked < s.client.clientChunkIdCounter ∧
      (answers f chunkSize)[s.client.looked]? = some response := by
  have hhead := congrArg List.head? h.transit
  rw [List.head?_drop, List.getElem?_take] at hhead
  simp only [SystemState.transit, hm, MainPc.held, List.cons_append, List.head?_cons] at hhead
  split at hhead
  next hlt => exact ⟨hlt, hhead.symm⟩
  next => cases hhead

/-- A response that is looked up in time is found. -/
theorem Delivery.of_lookup (h : Delivery f chunkSize s) (hw : WriterInv f chunkSize s.client)
    (hc : InTime s (.client (.main .lookup)))
    (hs : systemStep P s (.client (.main .lookup)) = some t) :
    Delivery f chunkSize t ∧ ¬Misses s (.client (.main .lookup)) := by
  obtain ⟨-, client, hstep, rfl⟩ := client_main_iff.mp hs
  have hframe := mainStep_frame hstep
  have hinserted := hw.inserted_mainStep hstep
  obtain ⟨response, now, hm, rfl⟩ := lookup_iff.mp hstep
  obtain ⟨hlt, hanswer⟩ := h.head hm
  have hblock := hlt.trans_le hw.counter_le
  rw [getElem?_answers hblock, Option.some.injEq] at hanswer
  have hid : toSizeT response.originalClientChunkId = s.client.looked + 1 := by
    have hlen := f.length_lt
    have hcount := Blocks.count_le chunkSize.pos f.bytes.length
    rw [Blocks.length_blocks] at hblock
    rw [← hanswer]
    exact toSizeT_ofNat (by omega)
  have hlookedUp : lookedUp s (.client (.main .lookup)) = some (s.client.looked + 1) := by
    simp only [lookedUp, hm, hid]
  rw [inTime_iff hlookedUp] at hc
  rw [misses_iff hlookedUp]
  have hle : s.client.looked + 1 ≤ s.client.inserted := by
    rcases hw.pending h.broken with ⟨-, heq⟩ | ⟨hpending, heq⟩
    · omega
    · rw [hpending, ne_eq, Option.some.injEq] at hc
      omega
  have hmem : s.client.looked + 1 ∈ s.client.inflightRequestsMap :=
    (h.map _).mpr ⟨Nat.lt_succ_self _, hle⟩
  rcases lookup_cases s.client response now with ⟨entry, hl, heq⟩ | ⟨hl, -⟩
  · rw [hid] at hl heq
    have hlooked : s.client.looked = s.client.receivedResponsesCount := by
      simp only [ClientState.looked, hm]
    obtain ⟨hentry, -⟩ := hw.map hl
    obtain ⟨_, hdata⟩ := List.getElem?_eq_some_iff.mp hentry.data
    rw [heq] at hframe hinserted ⊢
    refine ⟨?_, by simp [hl]⟩
    constructor
    · exact h.errors
    · exact hframe.broken.trans h.broken
    · have htail := congrArg List.tail h.transit
      rw [List.tail_drop, hlooked] at htail
      simp only [SystemState.transit, hm, MainPc.held] at htail
      exact htail
    · exact hinserted ▸ hlooked ▸ hle
    · intro id
      have hmap := h.map id
      show id ∈ s.client.inflightRequestsMap.erase (s.client.looked + 1) ↔
        s.client.receivedResponsesCount + 1 < id ∧ id ≤ ClientState.inserted _
      rw [afterClient_client, hinserted, AList.mem_erase, hmap]
      omega
    · refine ⟨hlooked ▸ hentry, ?_⟩
      rw [← hanswer, ← hdata]
      rfl
    · have htotal := h.total
      simp only [ClientState.compared, hm] at htotal
      exact htotal
    · intro hhalf
      exact h.halfClosed hhalf
    · exact h.returned
  · rw [hid, AList.lookup_eq_none] at hl
    exact absurd hmem hl

/-- The read loop ends when every answer has been looked up. -/
theorem Delivery.of_end (h : Delivery f chunkSize s) (hw : WriterInv f chunkSize s.client)
    (hm : s.client.main = .read) (hresponses : s.responses = [])
    (hreturned : s.server.pc.hasReturned = true) :
    s.client.receivedResponsesCount = (blocks chunkSize.val f.bytes).length := by
  cases hpc : s.server.pc with
  | read | write response =>
    rw [hpc] at hreturned
    cases hreturned
  | returned status =>
    obtain ⟨-, hrequests, hhalf⟩ := h.returned hpc
    have hcounter := hw.counter_eq h.broken (h.halfClosed hhalf)
    have hlen := congrArg List.length h.transit
    simp only [SystemState.transit, hm, MainPc.held, hresponses, hpc, ServerPc.held, hrequests,
      List.map_nil, List.append_nil, List.length_nil, List.length_drop, List.length_take,
      length_answers, ClientState.looked] at hlen
    have hle := h.looked_le
    simp only [ClientState.looked, hm] at hle
    rcases hw.pending h.broken with ⟨-, heq⟩ | ⟨-, heq⟩ <;> omega

/-- No request is left in the map when every answer has been looked up. -/
theorem Delivery.keys_eq_nil (h : Delivery f chunkSize s) (hw : WriterInv f chunkSize s.client)
    (hall : s.client.looked = (blocks chunkSize.val f.bytes).length) :
    s.client.inflightRequestsMap.keys = [] := by
  apply List.eq_nil_iff_forall_not_mem.mpr
  intro id hid
  obtain ⟨hlt, hle⟩ := (h.map id).mp (AList.mem_keys.mp hid)
  have hcounter := hw.counter_le
  rcases hw.pending h.broken with ⟨-, heq⟩ | ⟨-, heq⟩ <;> omega

theorem Delivery.of_verify (h : Delivery f chunkSize s) (hw : WriterInv f chunkSize s.client)
    (hs : systemStep P s (.client (.main .verify)) = some t) : Delivery f chunkSize t := by
  obtain ⟨-, client, hstep, rfl⟩ := client_main_iff.mp hs
  obtain ⟨entry, response, hm, rfl⟩ := verify_iff.mp hstep
  obtain ⟨hentry, hdata⟩ := by simpa only [AtDelivery, hm] using h.pc
  rcases verify_cases s.client entry response with ⟨-, heq⟩ | ⟨hne, -⟩
  · rw [heq] at hstep ⊢
    refine h.of_main_frame hw hstep rfl ?_ ?_ rfl trivial ?_
    · simp only [ClientState.looked, hm]
    · simp only [MainPc.held, hm]
    · have htotal := h.total
      simp only [ClientState.compared, ClientState.looked, hm] at htotal hentry ⊢
      have hpos := hentry.pos
      obtain ⟨k, hk⟩ : ∃ k, s.client.receivedResponsesCount = k + 1 :=
        ⟨_, (Nat.succ_pred hpos.ne').symm⟩
      have hchunk := hentry.data
      rw [hk, Nat.add_sub_cancel] at htotal hchunk
      rw [hk, List.take_add_one, hchunk, htotal, hentry.size]
      simp
  · exact absurd hdata hne

theorem Delivery.of_main {a : MainAction} (h : Delivery f chunkSize s)
    (hw : WriterInv f chunkSize s.client) (ha : a ≠ .check)
    (hc : InTime s (.client (.main a))) (hs : systemStep P s (.client (.main a)) = some t) :
    Delivery f chunkSize t := by
  cases a with
  | check => exact absurd rfl ha
  | lookup => exact (h.of_lookup hw hc hs).1
  | verify => exact h.of_verify hw hs
  | throws what =>
    obtain ⟨hoffer, -⟩ := client_main_iff.mp hs
    cases hoffer
  | openStream ok now =>
    obtain ⟨hoffer, client, hstep, rfl⟩ := client_main_iff.mp hs
    have hok : ok = true := hoffer
    subst hok
    obtain ⟨hm, rfl⟩ := openStream_iff.mp hstep
    refine h.of_main_frame hw hstep rfl ?_ ?_ rfl trivial ?_
    · simp [ClientState.looked, hm]
    · simp [MainPc.held, hm]
    · simpa [ClientState.compared, hm] using h.total
  | read response now =>
    obtain ⟨hoffer, client, hstep, rfl⟩ := client_main_iff.mp hs
    obtain ⟨hm, rfl⟩ := read_iff.mp hstep
    cases response with
    | some response =>
      obtain ⟨rest, hrest⟩ : ∃ rest, s.responses = response :: rest :=
        List.head?_eq_some_iff.mp (beq_iff_eq.mp hoffer)
      refine h.of_main_frame hw hstep rfl ?_ ?_ rfl trivial ?_
      · simp [ClientState.looked, hm]
      · simp [MainPc.held, hm, hrest]
      · simpa [ClientState.compared, hm] using h.total
    | none =>
      obtain ⟨hnil, hreturned⟩ := Bool.and_eq_true_iff.mp hoffer
      have hnil := List.isEmpty_iff.mp hnil
      refine h.of_main_frame hw hstep rfl ?_ ?_ rfl (h.of_end hw hm hnil hreturned) ?_
      · simp [ClientState.looked, hm]
      · simp [MainPc.held, hm, hnil]
      · simpa [ClientState.compared, hm] using h.total
  | account =>
    obtain ⟨-, client, hstep, rfl⟩ := client_main_iff.mp hs
    obtain ⟨entry, response, now, hm, rfl⟩ := account_iff.mp hstep
    have hpc := h.pc
    refine h.of_main_frame hw hstep rfl ?_ ?_ rfl ?_ ?_
    · simp [ClientState.looked, ClientState.account, hm]
    · simp [MainPc.held, ClientState.account, hm]
    · simpa [AtDelivery, ClientState.looked, ClientState.account, hm] using hpc
    · simpa [ClientState.compared, ClientState.account, hm] using h.total
  | join =>
    obtain ⟨-, client, hstep, rfl⟩ := client_main_iff.mp hs
    obtain ⟨hm, -, rfl⟩ := join_iff.mp hstep
    have hpc := h.pc
    refine h.of_main_frame hw hstep rfl ?_ ?_ rfl ?_ ?_
    · simp [ClientState.looked, hm]
    · simp [MainPc.held, hm]
    · simpa [AtDelivery, ClientState.looked, hm] using hpc
    · simpa [ClientState.compared, hm] using h.total
  | leftover =>
    obtain ⟨-, client, hstep, rfl⟩ := client_main_iff.mp hs
    obtain ⟨hm, rfl⟩ := leftover_iff.mp hstep
    have hpc := h.pc
    rcases leftover_cases s.client with ⟨-, heq⟩ | ⟨hne, -⟩
    · rw [heq] at hstep ⊢
      refine h.of_main_frame hw hstep rfl ?_ ?_ rfl ?_ ?_
      · simp [ClientState.looked, hm]
      · simp [MainPc.held, hm]
      · simpa [AtDelivery, ClientState.looked, hm] using hpc
      · simpa [ClientState.compared, hm] using h.total
    · exact absurd (h.keys_eq_nil hw (by simpa only [AtDelivery, hm] using hpc)) hne
  | finish status now =>
    obtain ⟨hoffer, client, hstep, rfl⟩ := client_main_iff.mp hs
    obtain ⟨hm, rfl⟩ := main_finish_iff.mp hstep
    obtain ⟨rfl, -, -⟩ := h.returned (beq_iff_eq.mp hoffer)
    have hpc := h.pc
    obtain ⟨m, hmetrics, ⟨-, heq⟩ | ⟨hbad, -⟩⟩ := finish_cases s.client ⟨0, ""⟩ now
    · rw [heq] at hstep ⊢
      refine h.of_main_frame hw hstep hmetrics ?_ ?_ rfl ?_ ?_
      · simp [ClientState.looked, hm]
      · simp [MainPc.held, hm]
      · simpa [AtDelivery, ClientState.looked, hm] using hpc
      · simpa [ClientState.compared, hm] using h.total
    · cases hbad

/-! ### Runs -/

theorem Delivery.of_step {a : SystemAction} (h : Delivery f chunkSize s)
    (hw : WriterInv f chunkSize s.client) (ha : a ≠ .client (.main .check)) (hc : InTime s a)
    (hs : systemStep P s a = some t) : Delivery f chunkSize t ∧ ¬Misses s a := by
  cases a with
  | server a => exact ⟨h.of_server hs, not_misses rfl⟩
  | client a =>
    cases a with
    | writer a => exact ⟨h.of_writer hw hs, not_misses rfl⟩
    | main a =>
      by_cases hlookup : a = .lookup
      · subst hlookup
        exact h.of_lookup hw hc hs
      · exact ⟨h.of_main hw (fun heq => ha (heq ▸ rfl)) hc hs,
          not_misses (lookedUp_eq_none s hlookup)⟩

/-- In a run of the system whose lookups are all in time every response is found. -/
theorem Delivery.of_run {as : List SystemAction}
    (h : run (systemStep P) as (.init (Disk.ofFile f) chunkSize) = some t)
    (hc : Along (systemStep P) InTime as (.init (Disk.ofFile f) chunkSize))
    (hret : ∀ allVerified, t.client.main ≠ .returned allVerified) :
    Delivery f chunkSize t ∧
      ¬Sometime (systemStep P) Misses as (.init (Disk.ofFile f) chunkSize) := by
  induction as using List.reverseRecOn generalizing t with
  | nil =>
    cases h
    exact ⟨delivery_init f chunkSize, not_false⟩
  | append_singleton as a ih =>
    obtain ⟨s, hrun, hs⟩ := Machine.run_concat_eq_some.mp h
    obtain ⟨hcas, hca⟩ := (Machine.along_concat hrun).mp hc
    have hclient := run_client hrun
    have hsret : ∀ allVerified, s.client.main ≠ .returned allVerified := by
      cases a with
      | client a =>
        obtain ⟨-, client, hstep, -⟩ := client_iff.mp hs
        exact (JoinInv.of_run hclient).main_ne_returned hstep
      | server a =>
        obtain ⟨-, server, -, rfl⟩ := server_iff.mp hs
        simpa using hret
    have ha : a ≠ .client (.main .check) := by
      rintro rfl
      obtain ⟨-, client, hstep, rfl⟩ := client_main_iff.mp hs
      obtain ⟨status, -, rfl⟩ := check_iff.mp hstep
      rw [afterClient_client] at hret
      obtain ⟨-, ⟨-, message, heq⟩ | ⟨-, heq⟩⟩ | ⟨-, heq⟩ := check_cases P s.client status
      · exact hret false (by rw [heq])
      · exact hret true (by rw [heq])
      · exact hret false (by rw [heq])
    obtain ⟨hinv, hmiss⟩ := ih hrun hcas hsret
    obtain ⟨hinv', hmiss'⟩ := hinv.of_step (.of_run hclient) ha hca hs
    refine ⟨hinv', ?_⟩
    rw [Machine.sometime_concat hrun]
    exact not_or.mpr ⟨hmiss, hmiss'⟩

end ReversalBench.Grpc
