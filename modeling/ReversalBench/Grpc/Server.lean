import ReversalBench.Grpc.Client

/-! The gRPC server (`grpc_server.cpp`): `ProcessFileChunks` reads a request, answers it
with the bytes reversed and the id echoed, and ends the call when no request is left. -/

namespace ReversalBench.Grpc

/-- `reverse_bytes`. -/
def reverseBytes (data : List UInt8) : List UInt8 := data.reverse

/-- The response to a request. -/
def ChunkRequest.response (request : ChunkRequest) : ChunkResponse where
  reversedChunkData := reverseBytes request.dataChunk
  originalClientChunkId := request.clientAssignedChunkId

/-- Where the handler of the call is. -/
inductive ServerPc where
  | read
  | write (response : ChunkResponse)
  | returned (status : Status)
  deriving DecidableEq

structure ServerState where
  serverProcessedChunkCount : ℕ
  pc : ServerPc

def ServerState.init : ServerState := ⟨0, .read⟩

inductive ServerAction where
  | read (request : Option ChunkRequest)
  | write (ok : Bool)

def serverStep (s : ServerState) : ServerAction → Option ServerState
  | .read request =>
    match s.pc, request with
    | .read, some request =>
      some ⟨s.serverProcessedChunkCount + 1, .write request.response⟩
    | .read, none => some { s with pc := .returned ⟨0, ""⟩ }
    | _, _ => none
  | .write ok =>
    match s.pc with
    | .write _ =>
      if ok then some { s with pc := .read }
      else some { s with pc := .returned ⟨2, "Server failed to write response to stream."⟩ }
    | _ => none

def ServerPc.hasReturned : ServerPc → Bool
  | .returned _ => true
  | _ => false

/-- The response that the handler is about to write. -/
def ServerPc.held : ServerPc → List ChunkResponse
  | .write response => [response]
  | _ => []

end ReversalBench.Grpc
