import ReversalBench.Lib.Pool
import ReversalBench.GoTcp.Server

/-! The Go server with all its connections (`server/main.go`). One goroutine accepts
connections and starts another one for each; a failed accept is logged and the loop goes on.
A goroutine that panics would end the whole process, but none does: no connection has an
effect on another one, and the server listens for ever. -/

namespace ReversalBench.GoTcp

open Machine (Halts run log)
open StateTransition (Reaches)
open Tcp (lengthHeader)

inductive Process where
  | starting
  | listening
  | exited (status : ℕ)
  deriving DecidableEq

inductive ProcessAction where
  | listen (err : Option GoError)
  | acceptFails (err : GoError)

def Process.step : Process → ProcessAction → Option Process
  | .starting, .listen none => some .listening
  -- `log.Fatalf`
  | .starting, .listen (some _) => some (.exited 1)
  -- `continue`
  | .listening, .acceptFails _ => some .listening
  | _, _ => none

/-- A connection that a client makes, and its goroutine once it has been accepted. -/
structure Accepted (σ : Type*) where
  conn : σ
  handling : Option (Handling σ)

inductive ConnAction where
  | accept
  | step

section Server

variable {σ : Type*} (net : NetConn σ)

def Accepted.step (c : Accepted σ) : ConnAction → Option (Accepted σ)
  | .accept =>
    match c.handling with
    | none => some { c with handling := some (.start c.conn) }
    | some _ => none
  | .step =>
    (c.handling.bind (Handling.next net)).map fun handling => { c with handling := some handling }

/-- The process ends when a goroutine has panicked. -/
def Process.after (process : Process) (c : Accepted σ) : Process :=
  match c.handling.bind Handling.returned with
  | some .panicked => .exited 2
  | _ => process

def connStep (process : Process) (c : Accepted σ) (a : ConnAction) :
    Option (Process × Accepted σ) :=
  if process = .listening then (c.step net a).map fun c => (process.after c, c) else none

/-- The server and the connections that its clients make. -/
abbrev serverStep : Pool Process (Accepted σ) → Pool.Act ProcessAction ConnAction →
    Option (Pool Process (Accepted σ)) :=
  Pool.step Process.step (connStep net)

/-- Nothing has been accepted yet. -/
def server (conns : List σ) : Pool Process (Accepted σ) :=
  ⟨.listening, conns.map fun conn => ⟨conn, none⟩⟩

variable {net} {c d : Accepted σ} {t : Pool Process (Accepted σ)}

/-! ### Goroutines -/

theorem Handling.next_not_panicked {h h' : Handling σ} (hnext : Handling.next net h = some h') :
    h'.returned ≠ some .panicked := by
  unfold Handling.next at hnext
  split at hnext
  · cases hnext
  · split at hnext
    · cases hnext
      simp
    · rw [reverseBytesInPlace_eq] at hnext
      simp only at hnext
      split at hnext <;> cases hnext <;> simp

/-- A goroutine that has not returned goes on. -/
theorem Handling.exists_next {h : Handling σ} (hret : h.returned = none) :
    ∃ h', Handling.next net h = some h' := by
  unfold Handling.next
  rw [hret]
  simp only
  split
  · exact ⟨_, rfl⟩
  · split
    · exact ⟨_, rfl⟩
    · split <;> exact ⟨_, rfl⟩

/-- A connection by itself: its goroutine is not started, or has come this far. -/
def Accepted.Alone (net : NetConn σ) (conn : σ) (c : Accepted σ) : Prop :=
  c.conn = conn ∧ ∀ handling, c.handling = some handling →
    Reaches (Handling.next net) (.start conn) handling

theorem Accepted.Alone.step {conn : σ} {a : ConnAction} (h : c.Alone net conn)
    (hs : c.step net a = some d) : d.Alone net conn := by
  obtain ⟨rfl, hreach⟩ := h
  cases a with
  | accept =>
    simp only [Accepted.step] at hs
    split at hs <;> cases hs
    refine ⟨rfl, fun handling h => ?_⟩
    cases h
    exact .refl
  | step =>
    obtain ⟨handling', hnext, rfl⟩ := Option.map_eq_some_iff.mp hs
    obtain ⟨handling, hhandling, hnext⟩ := Option.bind_eq_some_iff.mp hnext
    refine ⟨rfl, fun h heq => ?_⟩
    cases heq
    exact (hreach handling hhandling).tail hnext

theorem Accepted.step_not_panicked {a : ConnAction} (hs : c.step net a = some d) :
    d.handling.bind Handling.returned ≠ some .panicked := by
  cases a with
  | accept =>
    simp only [Accepted.step] at hs
    split at hs <;> cases hs
    simp [Handling.start]
  | step =>
    obtain ⟨handling', hnext, rfl⟩ := Option.map_eq_some_iff.mp hs
    obtain ⟨handling, -, hnext⟩ := Option.bind_eq_some_iff.mp hnext
    exact Handling.next_not_panicked hnext

/-! ### The process -/

theorem Process.after_step {a : ConnAction} (hs : c.step net a = some d) (process : Process) :
    process.after d = process := by
  have hne := Accepted.step_not_panicked hs
  unfold Process.after
  split
  next h => exact absurd h hne
  next => rfl

theorem connStep_iff {process process' : Process} {a : ConnAction} :
    connStep net process c a = some (process', d) ↔
      process = .listening ∧ process' = .listening ∧ c.step net a = some d := by
  unfold connStep
  split
  next hp =>
    subst hp
    simp only [Option.map_eq_some_iff, Prod.mk.injEq, true_and]
    constructor
    · rintro ⟨d, hs, rfl, rfl⟩
      exact ⟨Process.after_step hs _, hs⟩
    · rintro ⟨rfl, hs⟩
      exact ⟨d, hs, Process.after_step hs _, rfl⟩
  next hp => simp [hp]

/-- The server does not stop listening. -/
theorem listening_step {s : Pool Process (Accepted σ)} {a : Pool.Act ProcessAction ConnAction}
    (h : s.shared = .listening) (hs : serverStep net s a = some t) : t.shared = .listening := by
  cases a with
  | all a =>
    obtain ⟨hg, -⟩ := Pool.all_iff.mp hs
    rw [h] at hg
    cases a with
    | listen err => cases hg
    | acceptFails err => exact (Option.some.inj hg).symm
  | part i a =>
    obtain ⟨c, d, -, hstep, -⟩ := Pool.part_iff.mp hs
    exact (connStep_iff.mp hstep).2.1

/-- Whatever the connections do and however often accepting fails, the server listens, and
each connection is where its own steps have brought it. -/
theorem connection_alone {conns : List σ} {as : List (Pool.Act ProcessAction ConnAction)}
    (h : run (serverStep net) as (server conns) = some t) {i : ℕ} {conn : σ}
    (hi : conns[i]? = some conn) :
    t.shared = .listening ∧ ∃ c, t.parts[i]? = some c ∧ c.Alone net conn := by
  have hstart : (server conns).parts[i]? = some ⟨conn, none⟩ := by simp [server, hi]
  have hlisten := Machine.invariant_run (P := fun t => t.shared = .listening)
    (fun _ _ _ => listening_step) rfl h
  have hpart : ∀ g (c : Accepted σ) a g' d, connStep net g c a = some (g', d) →
      c.step net a = some d := fun _ _ _ _ _ hs => (connStep_iff.mp hs).2.2
  obtain ⟨c, hc, halone⟩ := Pool.run_part hpart h hstart
  refine ⟨hlisten, c, hc, ?_⟩
  have hinit : Accepted.Alone net conn ⟨conn, none⟩ := ⟨rfl, fun _ h => by cases h⟩
  exact Machine.invariant_run (fun _ _ _ => Accepted.Alone.step) hinit halone

end Server

/-! ### A connection among others -/

section Sum

variable {σ τ : Type*} {net : NetConn σ} {other : NetConn τ}

/-- The goroutine of a connection, seen as one of several kinds. -/
def Handling.inl (h : Handling σ) : Handling (σ ⊕ τ) := ⟨.inl h.conn, h.returned⟩

theorem Handling.next_inl (h : Handling σ) :
    Handling.next (net.sum other) h.inl = (Handling.next net h).map Handling.inl := by
  obtain ⟨conn, returned⟩ := h
  cases returned with
  | some why => rfl
  | none =>
    simp only [Handling.next, Handling.inl, readMessage_inl, reverseBytesInPlace_eq]
    obtain ⟨got, conn₁, hread⟩ : ∃ got conn₁, readMessage net conn = (got, conn₁) := ⟨_, _, rfl⟩
    rw [hread]
    cases got with
    | error err => rfl
    | ok data =>
      dsimp only
      rw [writeMessage_inl]
      obtain ⟨sent, conn₂, hwrite⟩ : ∃ sent conn₂,
          writeMessage net conn₁ data.reverse = (sent, conn₂) := ⟨_, _, rfl⟩
      rw [hwrite]
      cases sent <;> rfl

/-- It goes as far as it does by itself. -/
theorem Handling.reaches_inl {h : Handling σ} {h' : Handling (σ ⊕ τ)}
    (hreach : Reaches (Handling.next (net.sum other)) h.inl h') :
    ∃ u, Reaches (Handling.next net) h u ∧ h' = u.inl := by
  have follow : ∀ (g : Handling (σ ⊕ τ)) (u : Handling σ) g', g = u.inl →
      Handling.next (net.sum other) g = some g' →
      ∃ u', Handling.next net u = some u' ∧ g' = u'.inl := by
    rintro _ u g' rfl hnext
    rw [next_inl] at hnext
    obtain ⟨u', hu', rfl⟩ := Option.map_eq_some_iff.mp hnext
    exact ⟨u', hu', rfl⟩
  exact Machine.reaches_simulate follow rfl hreach

end Sum

/-! ### What the clients receive -/

/-- A round only adds to what has been written. -/
theorem Handling.outgoing_next {h h' : Handling Conn}
    (hnext : Handling.next segmentConn h = some h') :
    h.conn.outgoing <+: h'.conn.outgoing := by
  have hread := readMessage_outgoing h.conn
  unfold Handling.next at hnext
  split at hnext
  · cases hnext
  · split at hnext
    next err conn heq =>
      cases hnext
      rw [heq] at hread
      exact hread ▸ List.prefix_rfl
    next data conn heq =>
      rw [heq] at hread
      simp only [reverseBytesInPlace_eq, writeMessage_segmentConn] at hnext
      cases hnext
      exact hread ▸ List.prefix_append _ _

theorem Handling.outgoing_reaches {h h' : Handling Conn}
    (hreach : Reaches (Handling.next segmentConn) h h') :
    h.conn.outgoing <+: h'.conn.outgoing :=
  Machine.invariant_reaches (P := fun h' : Handling Conn => h.conn.outgoing <+: h'.conn.outgoing)
    (fun _ _ hle hnext => hle.trans (outgoing_next hnext)) List.prefix_rfl hreach

/-- The answers to the complete frames that a connection delivers, in order. -/
def Conn.answers (conn : Conn) : List UInt8 :=
  lengthHeader.encode
    ((lengthHeader.parse (fun _ => true) conn.incoming.flatten).1.map List.reverse)

/-- A goroutine that has returned has written all the answers. -/
theorem Handling.answers_of_returned {conn : Conn} {h : Handling Conn} {why : Returned}
    (hreach : Reaches (Handling.next segmentConn) (.start conn) h) (hret : h.returned = some why) :
    (∃ err, why = .readFailed err) ∧ h.conn.outgoing = conn.outgoing ++ conn.answers := by
  obtain ⟨last, err, hlast, hfailed, hout⟩ := Handling.serve conn
  have hstop : Halts (Handling.next segmentConn) h h :=
    Machine.halts_of_none (by simp [Handling.next, hret])
  obtain rfl := hstop.unique (hlast.of_reaches hreach)
  rw [hret] at hfailed
  exact ⟨⟨err, Option.some.inj hfailed⟩, hout⟩

/-- What a goroutine has written is a front part of the answers. -/
theorem Handling.prefix_answers {conn : Conn} {h : Handling Conn}
    (hreach : Reaches (Handling.next segmentConn) (.start conn) h) :
    h.conn.outgoing <+: conn.outgoing ++ conn.answers := by
  obtain ⟨last, err, hlast, -, hout⟩ := Handling.serve conn
  exact hout ▸ Handling.outgoing_reaches (hlast.of_reaches hreach).1

/-- A connection that does not fail, among any number of others that behave as they like, and
with any number of failed accepts: in every interleaving its client has at any time received a
front part of the answers to its own frames. The connection can be accepted, or its goroutine
can go on, or has written all the answers and returned; this does not depend on the others. -/
theorem connections_served {τ : Type*} (other : NetConn τ) {conns : List (Conn ⊕ τ)}
    {as : List (Pool.Act ProcessAction ConnAction)} {t : Pool Process (Accepted (Conn ⊕ τ))}
    (h : run (serverStep (segmentConn.sum other)) as (server conns) = some t) {i : ℕ} {conn : Conn}
    (hi : conns[i]? = some (.inl conn)) :
    t.shared = .listening ∧ ∃ c, t.parts[i]? = some c ∧
      ((c.handling = none ∧
        ∃ u, serverStep (segmentConn.sum other) t (.part i .accept) = some u) ∨
      ∃ handling : Handling Conn, c.handling = some handling.inl ∧
        handling.conn.outgoing <+: conn.outgoing ++ conn.answers ∧
        ((∃ u, serverStep (segmentConn.sum other) t (.part i .step) = some u) ∨
          (∃ err, handling.returned = some (.readFailed err)) ∧
            handling.conn.outgoing = conn.outgoing ++ conn.answers)) := by
  obtain ⟨hlisten, c, hc, halone⟩ := connection_alone h hi
  refine ⟨hlisten, c, hc, ?_⟩
  have hgo : ∀ a d, c.step (segmentConn.sum other) a = some d →
      ∃ u, serverStep (segmentConn.sum other) t (.part i a) = some u := fun a d hs =>
    ⟨_, Pool.exists_part hc (connStep_iff.mpr ⟨hlisten, hlisten, hs⟩)⟩
  cases hhandling : c.handling with
  | none =>
    refine .inl ⟨rfl, hgo .accept { c with handling := some (.start c.conn) } ?_⟩
    simp only [Accepted.step, hhandling]
  | some handling' =>
    obtain ⟨handling, hreach, rfl⟩ :=
      @Handling.reaches_inl _ _ segmentConn other (.start conn) _ (halone.2 handling' hhandling)
    refine .inr ⟨handling, rfl, Handling.prefix_answers hreach, ?_⟩
    cases hreturned : handling.returned with
    | none =>
      obtain ⟨after, hnext⟩ :=
        @Handling.exists_next _ (segmentConn.sum other) handling.inl hreturned
      refine .inl (hgo .step { c with handling := some after } ?_)
      simp only [Accepted.step, hhandling, Option.bind_some, hnext, Option.map_some]
    | some why =>
      obtain ⟨⟨err, rfl⟩, hout⟩ := Handling.answers_of_returned hreach hreturned
      exact .inr ⟨⟨err, rfl⟩, hout⟩

/-- A client that resets its connection: what it has sent can be read, but nothing can be
written. -/
def resetConn : NetConn Conn where
  toSource := segmentConn.toSource
  write s _ := (some (.other "connection reset by peer"), s)

/-- The first client sends a whole frame and resets its connection, the second one sends a
whole frame. -/
def resetAndWhole : List (Conn ⊕ Conn) :=
  [.inr ⟨[[0, 0, 0, 1, 5]], []⟩, .inl ⟨[[0, 0, 0], [2, 1, 2]], []⟩]

theorem connections_served_two :
    ∃ t, run (serverStep (segmentConn.sum resetConn)) [.part 0 .accept, .all (.acceptFails .eof),
        .part 1 .accept, .part 0 .step, .part 1 .step, .part 1 .step] (server resetAndWhole) =
          some t ∧
      (t.parts.map fun c => c.handling.bind Handling.returned) =
        [some (.writeFailed (.other "connection reset by peer")), some (.readFailed .eof)] ∧
      t.shared = .listening ∧ ∃ c handling, t.parts[1]? = some c ∧
        c.handling = some (Handling.inl handling) ∧
        handling.conn.outgoing = [0, 0, 0, 2, 2, 1] := by
  have hrun : (run (serverStep (segmentConn.sum resetConn)) [.part 0 .accept,
      .all (.acceptFails .eof), .part 1 .accept, .part 0 .step, .part 1 .step, .part 1 .step]
      (server resetAndWhole)).map
        (fun t => t.parts.map fun c => c.handling.bind Handling.returned) =
      some [some (.writeFailed (.other "connection reset by peer")), some (.readFailed .eof)] := by
    decide +kernel
  obtain ⟨t, ht, hparts⟩ := Option.map_eq_some_iff.mp hrun
  obtain ⟨hlisten, c, hc, hcases⟩ := @connections_served _ resetConn resetAndWhole _ t ht 1 _ rfl
  refine ⟨t, ht, hparts, hlisten, c, ?_⟩
  have hret : c.handling.bind Handling.returned = some (.readFailed .eof) := by
    have hsnd := congrArg (·[1]?) hparts
    simpa [List.getElem?_map, hc] using hsnd
  rcases hcases with ⟨hnone, -⟩ | ⟨handling, hhandling, -, ⟨u, hu⟩ | ⟨-, hout⟩⟩
  · simp [hnone] at hret
  · obtain ⟨c', d, hc', hstep, -⟩ := Pool.part_iff.mp hu
    obtain rfl := Option.some.inj (hc.symm.trans hc')
    have hnext := (connStep_iff.mp hstep).2.2
    rw [hhandling] at hret
    have hreturned : (Handling.inl handling : Handling (Conn ⊕ Conn)).returned =
      some (.readFailed .eof) := hret
    simp [Accepted.step, hhandling, Handling.next, hreturned] at hnext
  · refine ⟨handling, hc, hhandling, ?_⟩
    rw [hout]
    decide +kernel

end ReversalBench.GoTcp
