import ReversalBench.Tcp.Server
import ReversalBench.GoTcp.Messaging

/-! Messages between the two TCP benchmarks. Either side's framing is understood by
either side, on hosts of either byte order and however the connection cuts the bytes
into reads. -/

namespace ReversalBench

open Tcp (lengthHeader)

/-- Who frames a payload. -/
inductive Sender where
  | go
  | cpp (host : ByteOrder)

/-- The bytes a sender writes for a payload. -/
def Sender.bytes : Sender → List UInt8 → List UInt8
  | .go, payload => (GoTcp.writeMessage GoTcp.segmentConn ⟨[], []⟩ payload).2.outgoing
  | .cpp host, payload => (Tcp.prepareMessage host payload).2.flatten

/-- All senders write the frame of the payload, and of no other length than 32 bits hold. -/
theorem Sender.bytes_eq (sender : Sender) (payload : List UInt8) :
    sender.bytes payload = lengthHeader.frame payload := by
  cases sender with
  | go => rw [bytes, GoTcp.writeMessage_segmentConn, List.nil_append]
  | cpp host => exact Tcp.prepareMessage_flatten host payload

theorem Sender.map_bytes (sender : Sender) (ps : List (List UInt8)) :
    (ps.map sender.bytes).flatten = lengthHeader.encode ps := by
  rw [HeaderCode.encode, funext sender.bytes_eq]

/-- Payloads below 2^32 bytes that are sent one after the other are received by a Go
reader as that list and no more, and by a C++ reader if none exceeds its limit; and it
does not matter who sends. -/
theorem framing_round_trip (sender : Sender) {ps : List (List UInt8)}
    (hps : ∀ p ∈ ps, p.length < 2 ^ 32) {segments : List (List UInt8)}
    (hsent : segments.flatten = (ps.map sender.bytes).flatten) {n : ℕ} (hn : ps.length ≤ n) :
    (∃ conn, HeaderCode.receiveAll (GoTcp.readMessage GoTcp.segmentConn) n ⟨segments, []⟩ =
        (ps, conn) ∧ conn.incoming.flatten = []) ∧
    (∀ (host : ByteOrder) (chunkSize : ChunkSize) (session : Tcp.TCPSession),
      (∀ p ∈ ps, p.length ≤ 2 * chunkSize.val) →
      ∃ s, HeaderCode.receiveAll (Tcp.TCPSession.receive host chunkSize) n (session, segments) =
        (ps, s) ∧ s.2.flatten = []) ∧
    ∀ (sender' : Sender) (payload : List UInt8), sender'.bytes payload = sender.bytes payload := by
  have henc : segments.flatten = lengthHeader.encode ps := hsent.trans (sender.map_bytes ps)
  have hb : ∀ p ∈ ps, p.length < lengthHeader.bound := Tcp.lengthHeader_bound ▸ hps
  refine ⟨?_, fun host chunkSize session hlimit => ?_, fun sender' payload => ?_⟩
  · exact HeaderCode.receiveAll_encode
      (GoTcp.readMessage_receives GoTcp.segmentConn_delivers)
      (fun p hp => ⟨hb p hp, rfl⟩) hn henc
  · apply HeaderCode.receiveAll_encode (Tcp.Serving.receive_receives host) ?_ hn henc
    intro p hp
    have hle := hlimit p hp
    exact ⟨hb p hp, decide_eq_true (by omega)⟩
  · rw [Sender.bytes_eq, Sender.bytes_eq]

/-- Two messages, the second one empty, in segments that cut the first header. -/
theorem framing_round_trip_two :
    (∃ conn, HeaderCode.receiveAll (GoTcp.readMessage GoTcp.segmentConn) 3
        ⟨[[0, 0], [0, 2, 7], [8, 0, 0, 0, 0]], []⟩ = ([[7, 8], []], conn) ∧
      conn.incoming.flatten = []) ∧
    Sender.go.bytes [7, 8] = (Sender.cpp .little).bytes [7, 8] := by
  have h := @framing_round_trip (.cpp .little) [[7, 8], []] (by decide)
    [[0, 0], [0, 2, 7], [8, 0, 0, 0, 0]] (by decide) 3 (by decide)
  exact ⟨h.1, h.2.2 .go [7, 8]⟩

end ReversalBench
