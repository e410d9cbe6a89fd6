import ReversalBench.Lib.Pool
import ReversalBench.Capnp.Exit

/-! The Cap'n Proto server (`capnp_server.cpp`) with any number of clients. One thread
accepts connections and, while it waits for the next one, handles the calls that arrive on
those it has; each connection gets a `FileProcessorImpl` of its own. The loop is left when
accepting fails, and the process ends with all its connections. A client makes one call at
a time and waits for the reply. -/

namespace ReversalBench.Capnp

open Blocks (blocks)
open StateTransition (Reaches)

/-- `reverse_bytes`. -/
def reverseBytes (data : List UInt8) : List UInt8 := data.reverse

/-- What a call returns. -/
inductive Reply where
  | handler
  | chunk (data : List UInt8)
  | done
  deriving DecidableEq

/-- `startStreaming` of `FileProcessorImpl`, and `processChunk` and `doneStreaming` of the
`ChunkHandlerImpl` that it returns. A handler has no state of its own. -/
def handle : Call → Reply
  | .startStreaming => .handler
  | .processChunk data => .chunk (reverseBytes data)
  | .doneStreaming => .done

/-- Where `main` of the server is. -/
inductive Process where
  | setup
  | accepting
  | exited (status : ℕ)
  deriving DecidableEq

/-- The outcome of `setupAsyncIo`, `parseAddress` and `listen`, and an `accept` that throws or
returns a null connection. -/
inductive ProcessAction where
  | setup (outcome : Except Thrown Unit)
  | acceptFails

def Process.step : Process → ProcessAction → Option Process
  | .setup, .setup (.ok ()) => some .accepting
  | .setup, .setup (.error _) => some (.exited 1)
  -- `break`, and `main` goes on to return 0
  | .accepting, .acceptFails => some (.exited 0)
  | _, _ => none

/-- The connection of a client. -/
inductive Link where
  | unconnected
  | waiting
  | accepted
  | disconnected
  deriving DecidableEq

/-- What a client is started with. -/
structure Setting where
  file : File
  chunkSize : ChunkSize
  target : ℕ
  env : Env
  clock : Clock

def Setting.params (s : Setting) : Params := Capnp.params s.file s.chunkSize s.target

/-- A client, its connection, and the call or the reply that is under way. -/
structure Peer where
  setting : Setting
  client : Client
  link : Link
  request : Option Call
  reply : Option Reply

def Setting.start (s : Setting) : Peer where
  setting := s
  client := .init s.params s.clock
  link := .unconnected
  request := none
  reply := none

/-- The call that the client makes next. -/
def Client.calling (c : Client) : Option Call :=
  match c.pc with
  | .startStreaming => some .startStreaming
  | .loop =>
    if c.reader.nextChunk.1.isEmpty then none else some (.processChunk c.reader.nextChunk.1)
  | .doneStreaming => some .doneStreaming
  | _ => none

/-- A call returns. -/
def Env.replying (env : Env) : Reply → Env
  | .handler => { env with startStreaming := .ok () }
  | .chunk data => { env with processChunk := fun _ => .ok data }
  | .done => { env with doneStreaming := .ok () }

/-- Connecting and the calls throw. -/
def Env.throwing (env : Env) (e : Thrown) : Env where
  existingFileSize := env.existingFileSize
  generateTestFile := env.generateTestFile
  connect := .error e
  startStreaming := .error e
  openFile := env.openFile
  processChunk _ := .error e
  doneStreaming := .error e

inductive PeerAction where
  /-- The client takes a step without the server. -/
  | own
  | connect
  | refused (e : Thrown)
  | send
  | receive
  | broken (e : Thrown)
  /-- The server accepts the connection, handles a call, and sees the client disconnect. -/
  | accept
  | handle
  | disconnect

/-- A step of one client or of the server on its connection, with the process of the server. -/
def Peer.step (process : Process) (p : Peer) : PeerAction → Option Peer
  | .own =>
    if p.client.pc = .connect ∨ p.client.calling.isSome then none
    else
      (p.client.next p.setting.params p.setting.env).map fun client => { p with client }
  | .connect =>
    if process = .accepting ∧ p.client.pc = .connect then
      (p.client.next p.setting.params { p.setting.env with connect := .ok () }).map
        fun client => { p with client, link := .waiting }
    else none
  | .refused e =>
    if process ≠ .accepting ∧ p.client.pc = .connect then
      (p.client.next p.setting.params (p.setting.env.throwing e)).map
        fun client => { p with client }
    else none
  | .send =>
    match p.client.calling, p.request, p.reply with
    | some call, none, none => some { p with request := some call }
    | _, _, _ => none
  | .receive =>
    match p.reply with
    | some reply =>
      (p.client.next p.setting.params (p.setting.env.replying reply)).map
        fun client => { p with client, reply := none }
    | none => none
  | .broken e =>
    if process ≠ .accepting ∧ (p.request.isSome ∨ p.reply.isSome) then
      (p.client.next p.setting.params (p.setting.env.throwing e)).map
        fun client => { p with client, request := none, reply := none }
    else none
  | .accept =>
    if process = .accepting ∧ p.link = .waiting then
      some { p with link := .accepted }
    else none
  | .handle =>
    match p.request with
    | some call =>
      if process = .accepting ∧ p.link = .accepted then
        some { p with request := none, reply := some (Capnp.handle call) }
      else none
    | none => none
  | .disconnect =>
    match p.client.pc with
    | .exited _ =>
      if process = .accepting ∧ p.link = .accepted then
        some { p with link := .disconnected }
      else none
    | _ => none

/-- The server and its clients. -/
abbrev serviceStep : Pool Process Peer → Pool.Act ProcessAction PeerAction →
    Option (Pool Process Peer) :=
  Pool.step Process.step fun process p b => (p.step process b).map fun p => (process, p)

/-- The clients have not connected yet. -/
def service (process : Process) (settings : List Setting) : Pool Process Peer :=
  ⟨process, settings.map Setting.start⟩

end ReversalBench.Capnp
