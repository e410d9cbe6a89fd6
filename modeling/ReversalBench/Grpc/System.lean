import ReversalBench.Grpc.Server
import ReversalBench.Grpc.Invariant

/-! The gRPC client and server, connected by two streams that lose nothing and keep the
order. No stream operation fails. A request can be read by the server as soon as `Write`
is called, so also before `Write` has returned. -/

namespace ReversalBench.Grpc

/-- The two programs, the requests and the responses under way, and whether the client
has called `WritesDone`. -/
structure SystemState where
  client : ClientState
  server : ServerState
  requests : List ChunkRequest
  halfClosed : Bool
  responses : List ChunkResponse

def SystemState.init (disk : Disk) (chunkSize : ChunkSize) : SystemState where
  client := .init disk chunkSize
  server := .init
  requests := []
  halfClosed := false
  responses := []

inductive SystemAction where
  | client (a : Action)
  | server (a : ServerAction)

/-- What the streams let the client do: it reads the next response, or the end of the stream
when the server has returned, and then the status of the server. Nothing fails. -/
def SystemState.offersClient (s : SystemState) : Action → Bool
  | .writer (.throws _) | .main (.throws _) => false
  | .writer (.write ok) | .writer (.writesDone ok) | .main (.openStream ok _) => ok
  | .main (.read (some response) _) => s.responses.head? == some response
  | .main (.read none _) => s.responses.isEmpty && s.server.pc.hasReturned
  | .main (.finish status _) => s.server.pc == .returned status
  | _ => true

/-- What the streams let the server do: it reads the next request, or the end of the stream
when the client has called `WritesDone`. -/
def SystemState.offersServer (s : SystemState) : ServerAction → Bool
  | .read (some request) => s.requests.head? == some request
  | .read none => s.requests.isEmpty && s.halfClosed
  | .write ok => ok

/-- The request with which `Write` has been called and has not returned. -/
def WriterPc.called : WriterPc → List ChunkRequest
  | .write request _ => [request]
  | _ => []

/-- What a step of the client does to the streams. -/
def SystemState.afterClient (s : SystemState) (client : ClientState) : Action → SystemState
  | .writer (.nextChunk _) => { s with client, requests := s.requests ++ client.writer.called }
  | .writer (.writesDone _) => { s with client, halfClosed := true }
  | .main (.read _ _) => { s with client, responses := s.responses.tail }
  | _ => { s with client }

/-- What a step of the server does to the streams. -/
def SystemState.afterServer (s : SystemState) (server : ServerState) : ServerAction → SystemState
  | .read _ => { s with server, requests := s.requests.tail }
  | .write _ => { s with server, responses := s.responses ++ s.server.pc.held }

def systemStep (P : Params) (s : SystemState) : SystemAction → Option SystemState
  | .client a =>
    if s.offersClient a then (step P s.client a).map (s.afterClient · a) else none
  | .server a =>
    if s.offersServer a then (serverStep s.server a).map (s.afterServer · a) else none

variable {P : Params} {s t : SystemState}

theorem client_iff {a : Action} : systemStep P s (.client a) = some t ↔
    s.offersClient a = true ∧ ∃ client, step P s.client a = some client ∧
      s.afterClient client a = t := by
  simp [systemStep]

theorem client_writer_iff {a : WriterAction} : systemStep P s (.client (.writer a)) = some t ↔
    s.offersClient (.writer a) = true ∧ ∃ client, writerStep P s.client a = some client ∧
      s.afterClient client (.writer a) = t := client_iff

theorem client_main_iff {a : MainAction} : systemStep P s (.client (.main a)) = some t ↔
    s.offersClient (.main a) = true ∧ ∃ client, mainStep P s.client a = some client ∧
      s.afterClient client (.main a) = t := client_iff

theorem server_iff {a : ServerAction} : systemStep P s (.server a) = some t ↔
    s.offersServer a = true ∧ ∃ server, serverStep s.server a = some server ∧
      s.afterServer server a = t := by
  simp [systemStep]

@[simp] theorem afterClient_client (s : SystemState) (client : ClientState) (a : Action) :
    (s.afterClient client a).client = client := by
  unfold SystemState.afterClient
  split <;> rfl

@[simp] theorem afterServer_client (s : SystemState) (server : ServerState) (a : ServerAction) :
    (s.afterServer server a).client = s.client := by
  cases a <;> rfl

/-- The step of the client in a step of the system. -/
def clientAction (_ : SystemState) : SystemAction → Option Action
  | .client a => some a
  | .server _ => none

/-- The client of the system runs by itself. -/
theorem run_client {disk : Disk} {chunkSize : ChunkSize} {as : List SystemAction}
    (h : Machine.run (systemStep P) as (.init disk chunkSize) = some t) :
    Machine.run (step P)
      (Machine.log (systemStep P) clientAction as (.init disk chunkSize))
      (.init disk chunkSize) = some t.client := by
  refine Machine.run_project SystemState.client clientAction ?_ ?_ h
  · intro s a t b hs hb
    cases a with
    | client a =>
      cases hb
      obtain ⟨-, client, hstep, rfl⟩ := client_iff.mp hs
      rw [hstep, afterClient_client]
    | server a => cases hb
  · intro s a t hs hb
    cases a with
    | client a => cases hb
    | server a =>
      obtain ⟨-, server, -, rfl⟩ := server_iff.mp hs
      exact afterServer_client s server a

/-! ### Lookups -/

/-- The id that the writer still has to enter in the map, once it has called `Write`. -/
def WriterPc.pending : WriterPc → Option ℕ
  | .write _ entry | .insert entry => some entry.clientAssignedId
  | _ => none

/-- The id of the response that a step looks up. -/
def lookedUp (s : SystemState) : SystemAction → Option ℕ
  | .client (.main .lookup) =>
    match s.client.main with
    | .lookup response _ => some (toSizeT response.originalClientChunkId)
    | _ => none
  | _ => none

/-- A response is not looked up while the writer is between the call of `Write` and the
insertion of its request. -/
def InTime (s : SystemState) (a : SystemAction) : Prop :=
  ∀ id ∈ lookedUp s a, s.client.writer.pending ≠ some id

/-- A response is looked up and its request is not in the map. -/
def Misses (s : SystemState) (a : SystemAction) : Prop :=
  ∃ id ∈ lookedUp s a, s.client.inflightRequestsMap.lookup id = none

instance (s : SystemState) (a : SystemAction) : Decidable (InTime s a) :=
  inferInstanceAs (Decidable (∀ id ∈ lookedUp s a, _))

theorem lookedUp_eq_none {a : MainAction} (s : SystemState) (ha : a ≠ .lookup) :
    lookedUp s (.client (.main a)) = none := by
  cases a <;> first | rfl | exact absurd rfl ha

theorem inTime_of_none {a : SystemAction} (h : lookedUp s a = none) : InTime s a := by
  simp [InTime, h]

theorem not_misses {a : SystemAction} (h : lookedUp s a = none) : ¬Misses s a := by
  simp [Misses, h]

theorem inTime_iff {a : SystemAction} {id : ℕ} (h : lookedUp s a = some id) :
    InTime s a ↔ s.client.writer.pending ≠ some id := by
  simp [InTime, h]

theorem misses_iff {a : SystemAction} {id : ℕ} (h : lookedUp s a = some id) :
    Misses s a ↔ s.client.inflightRequestsMap.lookup id = none := by
  simp [Misses, h]

end ReversalBench.Grpc
