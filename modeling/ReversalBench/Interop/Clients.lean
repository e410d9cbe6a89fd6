import ReversalBench.Tcp.Verdict
import ReversalBench.GoTcp.Client

/-! The two TCP clients. Both are the stop-and-wait exchange of the blocks of the file.
The limit of the C++ client makes no difference, since an answer beyond it is not the
expected one. -/

namespace ReversalBench

/-- Against the same server bytes, however they are cut into reads, the two clients send
the same bytes, and one succeeds if and only if the other does. -/
theorem clients_agree (host : ByteOrder) (f : File) (chunkSize : ChunkSize)
    (cppClock goClock : Clock) (headers : Tcp.HeaderBuffer × Tcp.HeaderBuffer)
    {cppInput goInput : List (List UInt8)} (hsame : cppInput.flatten = goInput.flatten) :
    ∃ c g, Machine.Halts (Tcp.Transfer.next host chunkSize fun _ => [])
        ⟨(Tcp.TCPClient.new chunkSize (Disk.ofFile f) (.new cppClock) headers).start, cppInput, []⟩
        c ∧
      Machine.Halts (GoTcp.Client.next GoTcp.segmentHost)
        (.start GoTcp.segmentHost (Disk.ofFile f) chunkSize (⟨goInput, []⟩, goClock)) g ∧
      c.output = g.conn.1.outgoing ∧
      (c.client.stoppedWith = some false ↔ g.status = .finished) ∧
      (c.client.stoppedWith = some true ↔ ∃ why, g.status = .aborted why) := by
  obtain ⟨c, hc, hcout, sent, bytes, hfin, -⟩ := Tcp.Transfer.transfer_ends host chunkSize
    (fun _ => []) (Disk.ofFile f) cppClock headers cppInput
  obtain ⟨g, hg, hgout, hended, hfinished⟩ := GoTcp.Client.client_ends f chunkSize goInput goClock
  have hok := Tcp.Transfer.accepts_chunks (Disk.ofFile f) chunkSize
  have hstop := hfin.stoppedWith
  simp only [List.flatten_nil, Tcp.ChunkReader.chunks_ofFile] at hcout hstop hok
  rw [StopAndWait.converse_limit hok, hsame] at hcout hstop
  refine ⟨c, g, hc, hg, hcout.trans hgout.symm, ?_, ?_⟩
  · rw [hstop, hfinished, Option.some.injEq, Bool.not_eq_false']
  · have haborted : (∃ why, g.status = .aborted why) ↔ ¬ g.status = .finished := by
      cases hstatus : g.status with
      | running => exact absurd hstatus hended
      | finished => simp
      | aborted why => simp
    rw [hstop, haborted, hfinished, Option.some.injEq, Bool.not_eq_true', Bool.not_eq_true]

/-- Two chunks, of which the first is answered correctly and the second with an empty
message. -/
theorem clients_agree_two :
    ∃ c g, Machine.Halts (Tcp.Transfer.next .big ⟨2, by decide, by decide⟩ fun _ => [])
        ⟨(Tcp.TCPClient.new ⟨2, by decide, by decide⟩ (Disk.ofFile ⟨[1, 2, 3], by decide⟩)
          (.new ⟨fun n => n, 0⟩) (⟨[0, 0, 0, 0], rfl⟩, ⟨[0, 0, 0, 0], rfl⟩)).start,
          [[0, 0, 0, 2, 2], [1, 0, 0, 0, 0]], []⟩ c ∧
      Machine.Halts (GoTcp.Client.next GoTcp.segmentHost)
        (.start GoTcp.segmentHost (Disk.ofFile ⟨[1, 2, 3], by decide⟩) ⟨2, by decide, by decide⟩
          (⟨[[0, 0, 0, 2, 2, 1], [0, 0, 0, 0]], []⟩, ⟨fun n => n, 0⟩)) g ∧
      c.output = g.conn.1.outgoing ∧
      (c.client.stoppedWith = some false ↔ g.status = .finished) ∧
      (c.client.stoppedWith = some true ↔ ∃ why, g.status = .aborted why) :=
  clients_agree .big ⟨[1, 2, 3], by decide⟩ ⟨2, by decide, by decide⟩ ⟨fun n => n, 0⟩
    ⟨fun n => n, 0⟩ (⟨[0, 0, 0, 0], rfl⟩, ⟨[0, 0, 0, 0], rfl⟩)
    (by decide : [[0, 0, 0, 2, 2], [1, 0, 0, 0, 0]].flatten =
      [[0, 0, 0, 2, 2, 1], [0, 0, 0, (0 : UInt8)]].flatten)

end ReversalBench
