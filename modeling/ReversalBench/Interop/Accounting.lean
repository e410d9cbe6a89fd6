import ReversalBench.Capnp.Accounting
import ReversalBench.Grpc.Accounting

/-! The metrics of the two RPC clients: the payload and the round-trip times that are saved are
meant to describe the same chunks. The gRPC client records both when the response has been
matched; the Cap'n Proto client records the payload before the call that may throw. -/

namespace ReversalBench

open Blocks (blocks)
open Machine (Halts observed run)

/-- For every run of the gRPC client, in every state of it, and every run of the Cap'n Proto
client, when it has ended: the payload is that of the chunks that were measured, and no more
than what was on the wire. The gRPC client keeps to this always, the Cap'n Proto client unless
the call of a chunk throws. -/
theorem payloadAccounting_iff {P : Grpc.Params}
    (hbytes : ∀ request, request.dataChunk.length ≤ P.byteSizeLong request)
    {f : File} {chunkSize : ChunkSize} {prepared : Bool} {as : List Grpc.ProgramAction}
    {u : Grpc.Program}
    (hgrpc : run (Grpc.Program.step P) as
      (Grpc.Program.main prepared (Disk.ofFile f) chunkSize) = some u)
    {target : ℕ} {env : Capnp.Env} {clock : Clock} {t : Capnp.Client} {l : List (List UInt8)}
    (hcapnp : Halts (observed (Capnp.Client.next (Capnp.params f chunkSize target) env)
        (Capnp.Client.measuredChunk env))
      (Capnp.Client.init (Capnp.params f chunkSize target) clock, []) (t, l)) :
    let ids := Grpc.Program.measuredIds P as
      (Grpc.Program.main prepared (Disk.ofFile f) chunkSize)
    ((ids.Nodup ∧ (∀ id ∈ ids, 0 < id ∧ id ≤ (blocks chunkSize.val f.bytes).length) ∧
        u.client.metricsCollector.Accounts
          (ids.map fun id => Blocks.size chunkSize.val f.bytes.length (id - 1))) ∧
      t.metrics.Accounts (l.map List.length)) ↔
    ¬(env.Starts target ∧ env.CallThrows (blocks chunkSize.val f.bytes)) := by
  intro ids
  have haccounts := Grpc.Program.accounts hbytes hgrpc
  rw [and_iff_right haccounts]
  exact Capnp.Client.accounts_iff hcapnp

/-- The gRPC client sends the only chunk and matches the response. -/
def oneChunkRun : List Grpc.ProgramAction :=
  [.client (.main (.openStream true 0)), .client (.writer .wake), .client (.writer (.nextChunk 0)),
    .client (.writer (.write true)), .client (.writer .insert),
    .client (.main (.read (some ⟨[7], 1⟩) 3000)), .client (.main .lookup),
    .client (.main .account)]

theorem payloadAccounting_iff_oneChunk :
    ∃ u t l,
      run (Grpc.Program.step ⟨1, 1, fun request => request.dataChunk.length + 4⟩) oneChunkRun
        (Grpc.Program.main true (Disk.ofFile ⟨[7], by decide⟩) ⟨1, by decide, by decide⟩) = some u ∧
      Halts (observed (Capnp.Client.next
          (Capnp.params ⟨[7], by decide⟩ ⟨1, by decide, by decide⟩ 1) (.answering fun _ => [7]))
        (Capnp.Client.measuredChunk (.answering fun _ => [7])))
        (Capnp.Client.init (Capnp.params ⟨[7], by decide⟩ ⟨1, by decide, by decide⟩ 1)
          ⟨fun _ => 0, 0⟩, []) (t, l) ∧
      u.client.metricsCollector.Accounts [1] ∧ t.metrics.Accounts (l.map List.length) := by
  let P : Grpc.Params := ⟨1, 1, fun request => request.dataChunk.length + 4⟩
  let f : File := ⟨[7], by decide⟩
  let chunkSize : ChunkSize := ⟨1, by decide, by decide⟩
  have hsome : (run (Grpc.Program.step P) oneChunkRun
      (Grpc.Program.main true (Disk.ofFile f) chunkSize)).isSome = true := by decide +kernel
  obtain ⟨u, hu⟩ := Option.isSome_iff_exists.mp hsome
  have hids : Grpc.Program.measuredIds P oneChunkRun
      (Grpc.Program.main true (Disk.ofFile f) chunkSize) = [1] := by decide +kernel
  obtain ⟨t, hends, -⟩ := Capnp.Client.exits f chunkSize 1 (.answering fun _ => [7]) ⟨fun _ => 0, 0⟩
  obtain ⟨l, ht⟩ := hends.observed (Capnp.Client.measuredChunk (.answering fun _ => [7])) []
  have hreturns : ¬((Capnp.Env.answering fun _ => [7]).Starts 1 ∧
      (Capnp.Env.answering fun _ => [7]).CallThrows (blocks chunkSize.val f.bytes)) := by
    rintro ⟨-, k, -, -, e, hthrow⟩
    cases hthrow
  obtain ⟨⟨-, -, hgrpc⟩, hcapnp⟩ :=
    (payloadAccounting_iff (fun _ => Nat.le_add_right _ _) hu ht).mpr hreturns
  rw [hids] at hgrpc
  exact ⟨u, t, l, hu, ht, hgrpc, hcapnp⟩

/-- A server that cannot be reached any more when the only chunk is sent. -/
def lostCall : Capnp.Env where
  existingFileSize := some 1
  generateTestFile := true
  connect := .ok ()
  startStreaming := .ok ()
  openFile := .ok ()
  processChunk _ := .error (.kj "Peer disconnected.")
  doneStreaming := .ok ()

theorem payload_without_sample :
    ∃ t l, Halts (observed (Capnp.Client.next
          (Capnp.params ⟨[7], by decide⟩ ⟨1, by decide, by decide⟩ 1) lostCall)
        (Capnp.Client.measuredChunk lostCall))
      (Capnp.Client.init (Capnp.params ⟨[7], by decide⟩ ⟨1, by decide, by decide⟩ 1)
        ⟨fun _ => 0, 0⟩, []) (t, l) ∧
      l = [] ∧ t.metrics.getNumChunks = 0 ∧ t.metrics.actualPayloadTransferredBytes = 1 ∧
      ¬t.metrics.Accounts (l.map List.length) := by
  refine ⟨_, _, Machine.halts_of_step rfl <| Machine.halts_of_step rfl <|
    Machine.halts_of_step rfl <| Machine.halts_of_step rfl <| Machine.halts_of_step rfl <|
    Machine.halts_of_none rfl, rfl, rfl, rfl, ?_⟩
  intro h
  exact absurd h.payload (by decide)

end ReversalBench
