import ReversalBench.Lib.Machine
import ReversalBench.GoTcp.Messaging
import ReversalBench.GoTcp.Reversal

/-! The Go server (`server/main.go`). One goroutine handles one connection: it reads a
message, reverses it in place and writes it back, until an operation fails. -/

namespace ReversalBench.GoTcp

/-- How `handleConnection` came to return. -/
inductive Returned where
  | readFailed (err : GoError)
  | writeFailed (err : GoError)
  | panicked
  deriving DecidableEq

/-- A connection and the goroutine that handles it. -/
structure Handling (σ : Type*) where
  conn : σ
  returned : Option Returned

namespace Handling

variable {σ : Type*} (net : NetConn σ)

/-- The handler of a new connection. -/
def start (conn : σ) : Handling σ := ⟨conn, none⟩

/-- One round of the loop of `handleConnection`. -/
def next (h : Handling σ) : Option (Handling σ) :=
  match h.returned with
  | some _ => none
  | none =>
    match readMessage net h.conn with
    | (.error err, conn) => some ⟨conn, some (.readFailed err)⟩
    | (.ok receivedData, conn) =>
      match reverseBytesInPlace receivedData with
      | none => some ⟨conn, some .panicked⟩
      | some receivedData =>
        match writeMessage net conn receivedData with
        | (some err, conn) => some ⟨conn, some (.writeFailed err)⟩
        | (none, conn) => some ⟨conn, none⟩

open Tcp (lengthHeader)

/-- A complete frame is answered. -/
theorem next_frame {conn : Conn} {p r : List UInt8}
    (h : lengthHeader.next (fun _ => true) conn.incoming.flatten = some (p, r)) :
    ∃ segs, next segmentConn (start conn) =
        some (start ⟨segs, conn.outgoing ++ lengthHeader.frame p.reverse⟩) ∧ segs.flatten = r := by
  obtain ⟨conn', hr, hrest⟩ := readMessage_frame segmentConn_delivers h
  have hout : conn'.outgoing = conn.outgoing := by
    rw [← readMessage_outgoing conn, hr]
  refine ⟨conn'.incoming, ?_, hrest⟩
  simp only [next, start, hr, reverseBytesInPlace_eq, writeMessage_segmentConn, hout]

/-- The end of the stream, or a truncated frame, ends the loop without an answer. -/
theorem next_stop {conn : Conn}
    (h : lengthHeader.next (fun _ => true) conn.incoming.flatten = none) :
    ∃ err segs, next segmentConn (start conn) =
      some ⟨⟨segs, conn.outgoing⟩, some (.readFailed err)⟩ := by
  obtain ⟨err, conn', hr, -⟩ := readMessage_stop segmentConn_delivers h
  have hout : conn'.outgoing = conn.outgoing := by
    rw [← readMessage_outgoing conn, hr]
  refine ⟨err, conn'.incoming, ?_⟩
  simp only [next, start, hr, ← hout]

/-- The handler answers the complete frames of the stream, of any length, and returns
when a message cannot be read; it does not panic. -/
theorem serve (conn : Conn) :
    ∃ t err, Machine.Halts (next segmentConn) (start conn) t ∧ t.returned = some (.readFailed err) ∧
      t.conn.outgoing = conn.outgoing ++ lengthHeader.encode
        ((lengthHeader.parse (fun _ => true) conn.incoming.flatten).1.map List.reverse) := by
  generalize hl : conn.incoming.flatten = l
  induction l using HeaderCode.parse_induction lengthHeader (fun _ => true)
    generalizing conn with
  | stop l hn =>
    subst hl
    obtain ⟨err, segs, hnext⟩ := next_stop hn
    refine ⟨_, err, Machine.halts_of_step hnext (Machine.halts_of_none rfl), rfl, ?_⟩
    simp [HeaderCode.parse_of_none hn]
  | frame l p r hn ih =>
    subst hl
    obtain ⟨segs, hnext, hrest⟩ := next_frame hn
    obtain ⟨t, err, hh, hret, hout⟩ :=
      ih ⟨segs, conn.outgoing ++ lengthHeader.frame p.reverse⟩ hrest
    refine ⟨t, err, Machine.halts_of_step hnext hh, hret, ?_⟩
    simp [hout, HeaderCode.parse_of_some hn]

end Handling

end ReversalBench.GoTcp
