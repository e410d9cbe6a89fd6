import ReversalBench.Tcp.Server
import ReversalBench.GoTcp.Server

/-! The two TCP servers. The C++ session is the Go handler with a limit on the
declared lengths: they answer alike up to the first header beyond the limit, where
the C++ session ends. -/

namespace ReversalBench

open Tcp (lengthHeader)

/-- Both servers end on every finite stream. What the C++ session writes is the answers
to the frames before the first one beyond its limit, a prefix of what the Go handler
writes; without a header beyond the limit the two write the same. -/
theorem servers_agree (host : ByteOrder) (chunkSize : ChunkSize) (session : Tcp.TCPSession)
    {cppInput goInput : List (List UInt8)} (hsame : cppInput.flatten = goInput.flatten) :
    ∃ c g, Machine.Halts (Tcp.Serving.next host chunkSize) ⟨session.start, cppInput, []⟩ c ∧
      Machine.Halts (GoTcp.Handling.next GoTcp.segmentConn) (.start ⟨goInput, []⟩) g ∧
      ((∀ d ∈ lengthHeader.headers goInput.flatten, d ≤ 2 * chunkSize.val) →
        c.output = g.conn.outgoing) ∧
      c.output <+: g.conn.outgoing ∧
      c.output = lengthHeader.encode
        (((lengthHeader.parse (fun _ => true) goInput.flatten).1.takeWhile
          fun p => decide (p.length ≤ 2 * chunkSize.val)).map List.reverse) := by
  obtain ⟨c, hc, hcout, -⟩ := Tcp.Serving.serve host session cppInput []
  obtain ⟨g, err, hg, -, hgout⟩ := GoTcp.Handling.serve ⟨goInput, []⟩
  rw [hsame, List.nil_append] at hcout
  rw [List.nil_append] at hgout
  refine ⟨c, g, hc, hg, fun hd => ?_, ?_, ?_⟩
  · rw [hcout, hgout, HeaderCode.parse_fst_of_headers]
    intro d hmem
    have hle := hd d hmem
    exact decide_eq_true (by omega)
  · rw [hcout, hgout]
    exact lengthHeader.encode_prefix ((HeaderCode.parse_fst_prefix _).map _)
  · rw [hcout, HeaderCode.parse_fst_eq_takeWhile]
    simp only [Tcp.accepts, Nat.mul_comm]

/-- A frame of three bytes and the header of a longer one, cut differently for the two
servers. -/
theorem servers_agree_one :
    ∃ c g, Machine.Halts (Tcp.Serving.next .little ⟨2, by decide, by decide⟩)
        ⟨Tcp.TCPSession.start ⟨⟨[9, 9, 9, 9], rfl⟩, [8, 8], ⟨[9, 9, 9, 9], rfl⟩, none⟩,
          [[0, 0, 0, 3, 1], [2, 3, 0, 0, 0, 9]], []⟩ c ∧
      Machine.Halts (GoTcp.Handling.next GoTcp.segmentConn)
        (.start ⟨[[0], [0, 0, 3, 1, 2, 3, 0, 0, 0, 9]], []⟩) g ∧
      c.output <+: g.conn.outgoing := by
  obtain ⟨c, g, hc, hg, -, hprefix, -⟩ := @servers_agree .little ⟨2, by decide, by decide⟩
    ⟨⟨[9, 9, 9, 9], rfl⟩, [8, 8], ⟨[9, 9, 9, 9], rfl⟩, none⟩
    [[0, 0, 0, 3, 1], [2, 3, 0, 0, 0, 9]] [[0], [0, 0, 3, 1, 2, 3, 0, 0, 0, 9]] (by decide)
  exact ⟨c, g, hc, hg, hprefix⟩

end ReversalBench
