import ReversalBench.Grpc.Matching

/-! The verdict of the gRPC client can be trusted whatever the peer sends: the chunks
that were counted are different, so only all of them together have the size of the
file. -/

namespace ReversalBench.Grpc

open Blocks (blocks)
open Machine (run log)

variable {P : Params} {f : File} {chunkSize : ChunkSize} {t : ClientState}

/-- Every run of the client, against any peer: an id is matched at most once, the verified
bytes are those of the different chunks found correct, and if the client reports that all
data was verified, each chunk was answered with its id and its bytes reversed. -/
theorem verification_sound (hsize : f.bytes.length = P.actualFileSizeBytes) {as : List Action}
    (h : run (step P) as (.init (Disk.ofFile f) chunkSize) = some t) :
    let responses := log (step P) received as (.init (Disk.ofFile f) chunkSize)
    let matched := log (step P) matchedId as (.init (Disk.ofFile f) chunkSize)
    let correct := log (step P) correctId as (.init (Disk.ofFile f) chunkSize)
    (t.main = .returned true → ∀ k (hk : k < (blocks chunkSize.val f.bytes).length),
      ∃ response ∈ responses, response.originalClientChunkId = Int64.ofNat (k + 1) ∧
        response.reversedChunkData = (blocks chunkSize.val f.bytes)[k].reverse) ∧
    matched.Nodup ∧ correct.Nodup ∧ correct ⊆ matched ∧
    (∀ id ∈ correct, ∃ response ∈ responses, IsAnswer f chunkSize id response) ∧
    t.totalBytesVerifiedPayloadByReader =
      (correct.map fun id => Blocks.size chunkSize.val f.bytes.length (id - 1)).sum := by
  intro responses matched correct
  have hinv := ReaderInv.of_run h
  refine ⟨fun hmain k hk => ?_, hinv.nodup, hinv.correct_nodup, hinv.correct_subset, hinv.correct,
    hinv.total⟩
  have hall : t.totalBytesVerifiedPayloadByReader = P.actualFileSizeBytes := by
    simpa only [AtReader, hmain] using hinv.pc
  obtain ⟨response, hmem, hid, chunk, hchunk, hdata⟩ :=
    hinv.correct _ (hinv.mem_correct (hall.trans hsize.symm) hk)
  refine ⟨response, hmem, ?_, ?_⟩
  · rw [← ofNat_toSizeT response.originalClientChunkId, hid]
  · rw [hdata]
    obtain ⟨_, hget⟩ := List.getElem?_eq_some_iff.mp hchunk
    exact congrArg List.reverse hget.symm

/-- A file of two chunks whose answers come in the other order. -/
def outOfOrderRun : List Action :=
  [.main (.openStream true 0),
    .writer .wake, .writer (.nextChunk 0), .writer (.write true), .writer .insert,
    .writer .wake, .writer (.nextChunk 0), .writer (.write true), .writer .insert,
    .main (.read (some ⟨[3], 2⟩) 0), .main .lookup, .main .account, .main .verify,
    .main (.read (some ⟨[2, 1], 1⟩) 0), .main .lookup, .main .account, .main .verify,
    .writer .wake, .writer (.nextChunk 0), .writer .finish, .writer (.writesDone true),
    .writer .notifyAll,
    .main (.read none 0), .main .join, .main .leftover, .main (.finish ⟨0, ""⟩ 0), .main .check]

theorem verification_sound_outOfOrder :
    ∃ t, run (step ⟨2, 3, fun request => request.dataChunk.length⟩) outOfOrderRun
        (.init (Disk.ofFile ⟨[1, 2, 3], by decide⟩) ⟨2, by decide, by decide⟩) = some t ∧
      t.main = .returned true ∧
      ∀ answer ∈ [(1, [2, 1]), (2, [3])],
        ∃ response ∈ log (step ⟨2, 3, fun request => request.dataChunk.length⟩) received
            outOfOrderRun (.init (Disk.ofFile ⟨[1, 2, 3], by decide⟩) ⟨2, by decide, by decide⟩),
          response.originalClientChunkId = answer.1 ∧ response.reversedChunkData = answer.2 := by
  let P : Params := ⟨2, 3, fun request => request.dataChunk.length⟩
  let f : File := ⟨[1, 2, 3], by decide⟩
  let chunkSize : ChunkSize := ⟨2, by decide, by decide⟩
  have hrun : (run (step P) outOfOrderRun (.init (Disk.ofFile f) chunkSize)).map
      ClientState.main = some (.returned true) := by decide +kernel
  obtain ⟨t, ht, hmain⟩ := Option.map_eq_some_iff.mp hrun
  have hsound := (@verification_sound P f chunkSize t rfl _ ht).1 hmain
  obtain ⟨first, hfirst, hid, hdata⟩ := hsound 0 (by decide)
  obtain ⟨second, hsecond, hid', hdata'⟩ := hsound 1 (by decide)
  refine ⟨t, ht, hmain, List.forall_mem_cons.mpr ⟨?_, List.forall_mem_singleton.mpr ?_⟩⟩
  · exact ⟨first, hfirst, hid.trans rfl, hdata.trans (by decide)⟩
  · exact ⟨second, hsecond, hid'.trans rfl, hdata'.trans (by decide)⟩

end ReversalBench.Grpc
