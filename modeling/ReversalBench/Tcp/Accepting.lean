import ReversalBench.Tcp.Server
import Mathlib.Data.List.Forall2

/-! The C++ server with all its sessions (`tcp_server.cpp`). One thread runs the handlers of
the acceptor and of the sessions in any order, while clients connect and reset their
connections at any time. `remote_endpoint()` throws when the client is no longer connected:
in the constructor of a session the exception leaves the handler of the acceptor, `run()` and
the `try` block of `main`, which destroys the other sessions on its way; in a destructor it
terminates the process. -/

namespace ReversalBench.Tcp

open StateTransition (Reaches)

/-- A client that has connected and was not yet accepted: its bytes as they will arrive, and
whether it has reset the connection. -/
structure Peer where
  input : List (List UInt8)
  isReset : Bool

/-- A completed operation: as the client's bytes decide, which may have come before it reset
the connection, or with an error since it has. -/
inductive Completion where
  | regular
  | failed
  deriving DecidableEq

/-- A session with its client, and its operation once that has completed and the handler has
not yet run. -/
structure Connection where
  serving : Serving
  isReset : Bool
  completed : Option Completion

/-- The process runs, has returned from `main`, or was terminated. -/
inductive Process where
  | running
  | exited (status : ℕ)
  | terminated
  deriving DecidableEq

/-- The server: the clients that wait to be accepted, whether an accept operation is
outstanding, and the sessions in the order in which they were created. A session without a
pending operation is released. -/
structure TCPServer where
  process : Process
  acceptorOpen : Bool
  accepting : Bool
  incoming : List Peer
  sessions : List Connection

inductive ServerAction where
  /-- A client connects. -/
  | connect (input : List (List UInt8))
  /-- A client resets its connection before it is accepted. -/
  | resetIncoming (i : ℕ)
  /-- The client of a session resets its connection. -/
  | reset (i : ℕ)
  /-- The handler of the acceptor runs for the first waiting client; the memory of the new
  session holds anything. -/
  | accept (memory : TCPSession)
  /-- The handler of the acceptor runs after an error. -/
  | acceptError (ec : ErrorCode)
  /-- The pending operation of a session completes. -/
  | complete (i : ℕ) (completion : Completion)
  /-- The handler of a session's completed operation runs. -/
  | handle (i : ℕ)

namespace Connection

variable (host : ByteOrder) (chunkSize : ChunkSize)

/-- The session after its handler has run. -/
def handled (c : Connection) : Serving :=
  match c.completed, c.serving.session.pending with
  | some .failed, some .readHeader =>
    { c.serving with session := c.serving.session.onReadHeader host chunkSize .other }
  | some .failed, some .readBody =>
    { c.serving with session := c.serving.session.onReadBody host .other 0 }
  | some .failed, some (.write _) =>
    { c.serving with session := c.serving.session.onWrite .other }
  | _, _ => (Serving.next host chunkSize c.serving).getD c.serving

end Connection

namespace TCPServer

variable (host : ByteOrder) (chunkSize : ChunkSize)

def doAccept (s : TCPServer) : TCPServer := { s with accepting := true }

/-- The constructor. -/
def new : TCPServer :=
  doAccept {
    process := .running
    acceptorOpen := true
    accepting := false
    incoming := []
    sessions := [] }

/-- An exception leaves a handler. On its way to `main` it destroys the `io_context` with the
sessions that still have an operation, and their destructors ask for the endpoints of their
clients. -/
def leaveRun (s : TCPServer) : TCPServer :=
  let throws (c : Connection) : Bool := c.serving.session.pending.isSome && c.isReset
  { s with process := if s.sessions.any throws then .terminated else .exited 1 }

theorem leaveRun_process (s : TCPServer) : s.leaveRun.process ≠ .running := by
  unfold leaveRun
  dsimp only
  split <;> exact nofun

/-- The rest of the handler of `do_accept`. -/
def acceptAgain (s : TCPServer) : TCPServer :=
  if s.acceptorOpen then s.doAccept else s

/-- The handler of `do_accept` for a new connection: the constructor of the session asks for
the endpoint of the client. -/
def onAccept (s : TCPServer) (peer : Peer) (memory : TCPSession) : TCPServer :=
  if peer.isReset then s.leaveRun
  else
    acceptAgain { s with
      sessions := s.sessions ++ [⟨⟨memory.start, peer.input, []⟩, peer.isReset, none⟩] }

/-- The handler of `do_accept` after an error. -/
def onAcceptError (s : TCPServer) (ec : ErrorCode) : TCPServer :=
  if ec = .operationAborted then s else s.acceptAgain

/-- The handler of session `i` runs, and a session that has started no further operation is
destroyed: its destructor asks for the endpoint of the client. -/
def onSession (s : TCPServer) (i : ℕ) (c : Connection) : TCPServer :=
  let serving := c.handled host chunkSize
  let s := { s with sessions := s.sessions.set i { c with serving := serving, completed := none } }
  if serving.session.pending.isNone ∧ c.isReset then { s with process := .terminated } else s

/-- Nothing happens any more once the process has ended. The acceptor is never closed and its
operation never cancelled, so that an accept is not aborted. -/
def step (s : TCPServer) (a : ServerAction) : Option TCPServer :=
  if s.process ≠ .running then none
  else
    match a with
    | .connect input => some { s with incoming := s.incoming ++ [⟨input, false⟩] }
    | .resetIncoming i =>
      s.incoming[i]?.map fun p => { s with incoming := s.incoming.set i { p with isReset := true } }
    | .reset i =>
      s.sessions[i]?.map fun c => { s with sessions := s.sessions.set i { c with isReset := true } }
    | .accept memory =>
      match s.accepting, s.incoming with
      | true, p :: ps => some (onAccept { s with accepting := false, incoming := ps } p memory)
      | _, _ => none
    | .acceptError ec =>
      if s.accepting ∧ ec ≠ .success ∧ ec ≠ .operationAborted then
        some (onAcceptError { s with accepting := false } ec)
      else none
    | .complete i completion =>
      s.sessions[i]?.bind fun c =>
        if c.completed.isNone ∧ c.serving.session.pending.isSome ∧
            (completion = .failed → c.isReset) then
          some { s with sessions := s.sessions.set i { c with completed := some completion } }
        else none
    | .handle i =>
      s.sessions[i]?.bind fun c =>
        if c.completed.isSome then some (onSession host chunkSize s i c) else none

/-! ### Runs -/

/-- The session that an accepted client gets, before its first step. -/
def started (s : TCPServer) : ServerAction → Option Serving
  | .accept memory =>
    s.incoming.head?.bind fun p => if p.isReset then none else some ⟨memory.start, p.input, []⟩
  | _ => none

/-- The process runs, an accept operation is outstanding, and every session is in a state that
it reaches alone. -/
structure Isolated (actions : List ServerAction) (s : TCPServer) : Prop where
  running : s.process = .running
  accepting : s.accepting = true
  alone : List.Forall₂ (Reaches (Serving.next host chunkSize))
    (Machine.log (step host chunkSize) started actions new) (s.sessions.map Connection.serving)

/-- The action does not create or destroy a session whose client has reset its connection. -/
def Undisturbed (s : TCPServer) : ServerAction → Prop
  | .accept _ => ∀ p ∈ s.incoming.head?, p.isReset = false
  | .handle i => ∀ c ∈ s.sessions[i]?,
      c.isReset = true → (c.handled host chunkSize).session.pending.isSome
  | _ => True

instance (s : TCPServer) : ∀ a, Decidable (s.Undisturbed host chunkSize a)
  | .accept _ => inferInstanceAs (Decidable (∀ p ∈ s.incoming.head?, p.isReset = false))
  | .handle i => inferInstanceAs (Decidable (∀ c ∈ s.sessions[i]?,
      c.isReset = true → (c.handled host chunkSize).session.pending.isSome))
  | .connect _ => isTrue trivial
  | .resetIncoming _ => isTrue trivial
  | .reset _ => isTrue trivial
  | .acceptError _ => isTrue trivial
  | .complete _ _ => isTrue trivial

/-! ### One step -/

variable {host chunkSize} {starts : List Serving} {s t : TCPServer} {i : ℕ} {c : Connection}

/-- The process is alive, and only a session whose client has reset its connection has an
operation that failed. -/
structure Alive (host : ByteOrder) (chunkSize : ChunkSize) (starts : List Serving)
    (s : TCPServer) : Prop where
  running : s.process = .running
  acceptorOpen : s.acceptorOpen = true
  accepting : s.accepting = true
  alone : List.Forall₂ (Reaches (Serving.next host chunkSize)) starts
    (s.sessions.map Connection.serving)
  failed : ∀ c ∈ s.sessions, c.completed = some .failed → c.isReset = true

/-- What a client does, and the completion of an operation, moves no session. -/
theorem Alive.set (h : Alive host chunkSize starts s) (hi : s.sessions[i]? = some c)
    {c' : Connection} (hserving : c'.serving = c.serving)
    (hfailed : c'.completed = some .failed → c'.isReset = true) :
    Alive host chunkSize starts { s with sessions := s.sessions.set i c' } where
  running := h.running
  acceptorOpen := h.acceptorOpen
  accepting := h.accepting
  alone := by
    have hmap : (s.sessions.set i c').map Connection.serving =
        s.sessions.map Connection.serving := by
      obtain ⟨hlt, rfl⟩ := List.getElem?_eq_some_iff.mp hi
      rw [List.map_set, hserving, ← List.getElem_map Connection.serving (h := by simpa using hlt),
        List.set_getElem_self]
    rw [hmap]
    exact h.alone
  failed c₁ hc₁ := by
    rcases List.mem_or_eq_of_mem_set hc₁ with hc₁ | rfl
    · exact h.failed c₁ hc₁
    · exact hfailed

/-- A session that takes a step of its own stays in a state that it reaches alone. -/
theorem forall₂_set {next : Serving → Option Serving} {starts : List Serving}
    {sessions : List Connection} (h : List.Forall₂ (Reaches next) starts
      (sessions.map Connection.serving)) (hi : sessions[i]? = some c) {c' : Connection}
    (hreach : Reaches next c.serving c'.serving) :
    List.Forall₂ (Reaches next) starts ((sessions.set i c').map Connection.serving) := by
  induction starts generalizing sessions i with
  | nil =>
    cases sessions with
    | nil => simp at hi
    | cons c₁ sessions => simp at h
  | cons x starts ih =>
    cases sessions with
    | nil => simp at h
    | cons c₁ sessions =>
      obtain ⟨hx, hrest⟩ := List.forall₂_cons.mp h
      cases i with
      | zero =>
        cases hi
        exact .cons (hx.trans hreach) hrest
      | succ i => exact .cons hx (ih hrest hi)

theorem Alive.accept (h : Alive host chunkSize starts s) (p : Peer) (ps : List Peer)
    (memory : TCPSession) (hreset : p.isReset = false) :
    Alive host chunkSize (starts ++ [⟨memory.start, p.input, []⟩])
      (onAccept { s with accepting := false, incoming := ps } p memory) := by
  simp only [onAccept, hreset, Bool.false_eq_true, if_false, acceptAgain, h.acceptorOpen, if_true,
    doAccept]
  constructor
  · exact h.running
  · rfl
  · rfl
  · rw [List.map_append]
    exact List.rel_append h.alone (.cons .refl .nil)
  · intro c hc hfailed
    rcases List.mem_append.mp hc with hc | hc
    · exact h.failed c hc hfailed
    · cases List.mem_singleton.mp hc
      cases hfailed

/-- After an error no session goes on. -/
theorem handled_failed (h : c.completed = some .failed) :
    (c.handled host chunkSize).session.pending = none := by
  unfold Connection.handled
  rw [h]
  cases hp : c.serving.session.pending with
  | none => simp [Serving.next, hp]
  | some op => cases op <;> rfl

/-- Otherwise the session takes its own next step. -/
theorem handled_regular (h : c.completed = some .regular) :
    Reaches (Serving.next host chunkSize) c.serving (c.handled host chunkSize) := by
  unfold Connection.handled
  rw [h]
  cases hn : Serving.next host chunkSize c.serving with
  | none => exact .refl
  | some t => exact .single hn

theorem Alive.onSession (h : Alive host chunkSize starts s) (hi : s.sessions[i]? = some c)
    (hc : c.completed.isSome) :
    (s.Undisturbed host chunkSize (.handle i) →
        Alive host chunkSize starts (s.onSession host chunkSize i c)) ∧
      (¬ s.Undisturbed host chunkSize (.handle i) →
        (s.onSession host chunkSize i c).process ≠ .running) := by
  have hiff : s.Undisturbed host chunkSize (.handle i) ↔
      ¬ ((c.handled host chunkSize).session.pending.isNone ∧ c.isReset) := by
    simp only [Undisturbed, hi, Option.mem_some_iff, forall_eq']
    cases (c.handled host chunkSize).session.pending with
    | none => simp
    | some op => simp
  constructor
  · intro hu
    have hregular : c.completed = some .regular := by
      obtain ⟨completion, hcompletion⟩ := Option.isSome_iff_exists.mp hc
      cases completion with
      | regular => exact hcompletion
      | failed =>
        refine absurd ⟨?_, h.failed c (List.mem_of_getElem? hi) hcompletion⟩ (hiff.mp hu)
        rw [handled_failed hcompletion]
        rfl
    simp only [TCPServer.onSession, hiff.mp hu, if_false]
    constructor
    · exact h.running
    · exact h.acceptorOpen
    · exact h.accepting
    · exact forall₂_set h.alone hi (handled_regular hregular)
    · intro c₁ hc₁ hfailed
      rcases List.mem_or_eq_of_mem_set hc₁ with hc₁ | rfl
      · exact h.failed c₁ hc₁ hfailed
      · cases hfailed
  · intro hu
    simp only [TCPServer.onSession, not_not.mp (mt hiff.mpr hu)]
    exact nofun

/-- One step keeps the process alive if and only if it creates and destroys no session whose
client has reset its connection; every session then does what it does alone. -/
theorem Alive.step (h : Alive host chunkSize starts s) {a : ServerAction}
    (hstep : step host chunkSize s a = some t) :
    (s.Undisturbed host chunkSize a →
        Alive host chunkSize (starts ++ (started s a).toList) t) ∧
      (¬ s.Undisturbed host chunkSize a → t.process ≠ .running) := by
  have hrun : ¬ s.process ≠ .running := not_not.mpr h.running
  simp only [TCPServer.step, if_neg hrun] at hstep
  cases a with
  | connect input =>
    cases hstep
    refine ⟨fun _ => ?_, fun hu => absurd trivial hu⟩
    simpa [started] using
      (⟨h.running, h.acceptorOpen, h.accepting, h.alone, h.failed⟩ :
        Alive host chunkSize starts { s with incoming := s.incoming ++ [⟨input, false⟩] })
  | resetIncoming i =>
    obtain ⟨p, -, rfl⟩ := Option.map_eq_some_iff.mp hstep
    refine ⟨fun _ => ?_, fun hu => absurd trivial hu⟩
    rw [show (started s (.resetIncoming i)).toList = [] from rfl, List.append_nil]
    exact ⟨h.running, h.acceptorOpen, h.accepting, h.alone, h.failed⟩
  | reset i =>
    obtain ⟨c, hi, rfl⟩ := Option.map_eq_some_iff.mp hstep
    refine ⟨fun _ => ?_, fun hu => absurd trivial hu⟩
    rw [show (started s (.reset i)).toList = [] from rfl, List.append_nil]
    exact h.set hi rfl fun _ => rfl
  | accept memory =>
    rcases hin : s.incoming with _ | ⟨p, ps⟩
    · simp [h.accepting, hin] at hstep
    · simp only [h.accepting, hin, Option.some.injEq] at hstep
      subst hstep
      have hiff : s.Undisturbed host chunkSize (.accept memory) ↔ p.isReset = false := by
        simp [Undisturbed, hin]
      constructor
      · intro hu
        have hreset := hiff.mp hu
        have hstarted : (started s (.accept memory)).toList = [⟨memory.start, p.input, []⟩] := by
          simp [started, hin, hreset]
        rw [hstarted]
        exact h.accept p ps memory hreset
      · intro hu
        have hreset : p.isReset = true := by simpa [hiff] using hu
        rw [onAccept, if_pos hreset]
        exact leaveRun_process _
  | acceptError ec =>
    rw [Option.ite_none_right_eq_some] at hstep
    obtain ⟨⟨-, -, haborted⟩, hstep⟩ := hstep
    cases hstep
    refine ⟨fun _ => ?_, fun hu => absurd trivial hu⟩
    rw [show (started s (.acceptError ec)).toList = [] from rfl, List.append_nil]
    simp only [onAcceptError, haborted, if_false, acceptAgain, h.acceptorOpen, if_true, doAccept]
    exact ⟨h.running, rfl, rfl, h.alone, h.failed⟩
  | complete i completion =>
    obtain ⟨c, hi, hstep⟩ := Option.bind_eq_some_iff.mp hstep
    rw [Option.ite_none_right_eq_some] at hstep
    obtain ⟨⟨-, -, hreset⟩, hstep⟩ := hstep
    cases hstep
    refine ⟨fun _ => ?_, fun hu => absurd trivial hu⟩
    rw [show (started s (.complete i completion)).toList = [] from rfl, List.append_nil]
    refine h.set hi ?_ ?_
    · rfl
    · intro hfailed
      exact hreset (Option.some.inj hfailed)
  | handle i =>
    obtain ⟨c, hi, hstep⟩ := Option.bind_eq_some_iff.mp hstep
    rw [Option.ite_none_right_eq_some] at hstep
    obtain ⟨hc, hstep⟩ := hstep
    cases hstep
    rw [show (started s (.handle i)).toList = [] from rfl, List.append_nil]
    exact h.onSession hi hc

/-! ### Whole runs -/

theorem alive_new (host : ByteOrder) (chunkSize : ChunkSize) : Alive host chunkSize [] new where
  running := rfl
  acceptorOpen := rfl
  accepting := rfl
  alone := .nil
  failed := by simp [new, doAccept]

theorem alive_run {actions : List ServerAction}
    (h : Machine.run (TCPServer.step host chunkSize) actions new = some s) :
    (Machine.Along (TCPServer.step host chunkSize) (Undisturbed host chunkSize) actions new →
        Alive host chunkSize
          (Machine.log (TCPServer.step host chunkSize) started actions new) s) ∧
      (¬ Machine.Along (TCPServer.step host chunkSize) (Undisturbed host chunkSize) actions new →
        s.process ≠ .running) := by
  refine Machine.run_induction
    (P := fun actions s =>
      (Machine.Along (TCPServer.step host chunkSize) (Undisturbed host chunkSize) actions new →
        Alive host chunkSize
          (Machine.log (TCPServer.step host chunkSize) started actions new) s) ∧
      (¬ Machine.Along (TCPServer.step host chunkSize) (Undisturbed host chunkSize) actions new →
        s.process ≠ .running)) ?_ ?_ actions s h
  · exact ⟨fun _ => alive_new host chunkSize, fun hnot => absurd trivial hnot⟩
  · intro actions s a t hrun ih hstep
    rw [Machine.along_concat hrun, Machine.log_concat _ _ hrun]
    by_cases halong :
        Machine.Along (TCPServer.step host chunkSize) (Undisturbed host chunkSize) actions new
    · obtain ⟨hgood, hbad⟩ := (ih.1 halong).step hstep
      exact ⟨fun hu => hgood hu.2, fun hu => hbad fun h => hu ⟨halong, h⟩⟩
    · have hdead : s.process ≠ .running := ih.2 halong
      simp [TCPServer.step, hdead] at hstep

/-- However accepts, session steps, session ends and resets are interleaved: the server keeps
accepting and every session does what it does alone if and only if no session was created or
destroyed after its client had reset the connection. -/
theorem isolated_iff (host : ByteOrder) (chunkSize : ChunkSize) (actions : List ServerAction)
    (s : TCPServer) (h : Machine.run (step host chunkSize) actions new = some s) :
    Isolated host chunkSize actions s ↔
      Machine.Along (step host chunkSize) (Undisturbed host chunkSize) actions new := by
  obtain ⟨hgood, hbad⟩ := alive_run h
  constructor
  · intro hisolated
    by_contra hnot
    exact hbad hnot hisolated.running
  · intro halong
    have halive := hgood halong
    exact ⟨halive.running, halive.accepting, halive.alone⟩

/-- Memory that holds zeros. -/
def blank : TCPSession := ⟨⟨[0, 0, 0, 0], rfl⟩, [], ⟨[0, 0, 0, 0], rfl⟩, none⟩

/-- Two clients are served; one resets its connection once its answer is written, while the
other goes on. -/
def resetAfterAnswer : List ServerAction :=
  [.connect [[0, 0, 0, 1, 7]], .connect [[0, 0, 0, 1, 8]], .accept blank, .accept blank,
    .complete 0 .regular, .complete 1 .regular, .handle 1, .handle 0, .complete 0 .regular,
    .handle 0, .complete 0 .regular, .handle 0, .reset 0, .complete 1 .regular, .handle 1]

theorem isolated_iff_resetAfterAnswer :
    ∃ s, Machine.run (step .big ⟨2, by decide, by decide⟩) resetAfterAnswer new = some s ∧
      (s.sessions.map fun c => (c.serving.output, c.isReset)) =
        [([0, 0, 0, 1, 7], true), ([], false)] ∧
      Isolated .big ⟨2, by decide, by decide⟩ resetAfterAnswer s := by
  have halong : Machine.Along (step .big ⟨2, by decide, by decide⟩)
      (Undisturbed .big ⟨2, by decide, by decide⟩) resetAfterAnswer new := by decide +kernel
  exact ⟨_, rfl, rfl, (isolated_iff _ _ _ _ rfl).mpr halong⟩

/-- While one client is served, another one connects and resets its connection at once. -/
def resetAtOnce : List ServerAction :=
  [.connect [[0, 0, 0, 1, 7]], .accept blank, .complete 0 .regular, .connect [], .resetIncoming 0,
    .accept blank]

/-- The process ends with status 1 when the constructor of a session meets a reset, and it is
terminated when the destructor does. -/
theorem not_isolated :
    (∃ s, Machine.run (step .big ⟨2, by decide, by decide⟩) resetAtOnce new = some s ∧
      s.process = .exited 1 ∧ ¬ Isolated .big ⟨2, by decide, by decide⟩ resetAtOnce s) ∧
    ∃ s, Machine.run (step .big ⟨2, by decide, by decide⟩)
        (resetAfterAnswer ++ [.complete 0 .failed, .handle 0]) new = some s ∧
      s.process = .terminated ∧
      ¬ Isolated .big ⟨2, by decide, by decide⟩
        (resetAfterAnswer ++ [.complete 0 .failed, .handle 0]) s := by
  constructor
  · refine ⟨_, rfl, rfl, fun h => ?_⟩
    exact absurd h.running (by decide)
  · refine ⟨_, rfl, rfl, fun h => ?_⟩
    exact absurd h.running (by decide)

end TCPServer

end ReversalBench.Tcp
