import ReversalBench.Grpc.Invariant

/-! What the reader loop of the gRPC client has received, matched and found correct. An
id is matched at most once, since it leaves the map with the match and the writer only
enters larger ones; so no chunk is counted twice among the verified bytes. -/

namespace ReversalBench.Grpc

open Blocks (blocks)
open Machine (run log)

variable {P : Params} {f : File} {chunkSize : ChunkSize} {s t : ClientState}

/-! ### Observations -/

/-- The response that a step reads from the stream. -/
def received (_ : ClientState) : Action → Option ChunkResponse
  | .main (.read response _) => response
  | _ => none

/-- The client id that a step finds in the map. -/
def matchedId (s : ClientState) : Action → Option ℕ
  | .main .lookup =>
    match s.main with
    | .lookup response _ =>
      (s.inflightRequestsMap.lookup (toSizeT response.originalClientChunkId)).map
        SentChunkInfo.clientAssignedId
    | _ => none
  | _ => none

/-- The client id of the chunk that a step finds correctly reversed. -/
def correctId (s : ClientState) : Action → Option ℕ
  | .main .verify =>
    match s.main with
    | .verify entry response =>
      if response.reversedChunkData = entry.originalDataForVerification.reverse then
        some entry.clientAssignedId
      else none
    | _ => none
  | _ => none

/-! ### The invariant -/

/-- A response to the chunk with an id, with its bytes reversed. -/
def IsAnswer (f : File) (chunkSize : ChunkSize) (id : ℕ) (response : ChunkResponse) : Prop :=
  toSizeT response.originalClientChunkId = id ∧
    ∃ chunk, (blocks chunkSize.val f.bytes)[id - 1]? = some chunk ∧
      response.reversedChunkData = chunk.reverse

/-- What holds at the program counter of the reader, after the responses `rs` and with the
ids `ms` matched and `cs` correct. -/
def AtReader (P : Params) (f : File) (chunkSize : ChunkSize) (rs : List ChunkResponse)
    (ms cs : List ℕ) (s : ClientState) : Prop :=
  match s.main with
  | .lookup response _ => response ∈ rs
  | .account entry response _ | .verify entry response =>
    response ∈ rs ∧ IsEntry f chunkSize (toSizeT response.originalClientChunkId) entry ∧
      entry.clientAssignedId ∈ ms ∧ entry.clientAssignedId ∉ cs
  | .returned true => s.totalBytesVerifiedPayloadByReader = P.actualFileSizeBytes
  | _ => True

/-- The reader's part of the invariant. -/
structure ReaderInv (P : Params) (f : File) (chunkSize : ChunkSize) (rs : List ChunkResponse)
    (ms cs : List ℕ) (s : ClientState) : Prop where
  pc : AtReader P f chunkSize rs ms cs s
  nodup : ms.Nodup
  matched : ∀ id ∈ ms, 0 < id ∧ id ≤ s.inserted ∧ s.inflightRequestsMap.lookup id = none
  correct_nodup : cs.Nodup
  correct_subset : cs ⊆ ms
  correct : ∀ id ∈ cs, ∃ response ∈ rs, IsAnswer f chunkSize id response
  total : s.totalBytesVerifiedPayloadByReader =
    (cs.map fun id => Blocks.size chunkSize.val f.bytes.length (id - 1)).sum

theorem readerInv_init (P : Params) (f : File) (chunkSize : ChunkSize) :
    ReaderInv P f chunkSize [] [] [] (.init (Disk.ofFile f) chunkSize) where
  pc := trivial
  nodup := List.nodup_nil
  matched := by simp
  correct_nodup := List.nodup_nil
  correct_subset := by simp
  correct := by simp
  total := rfl

variable {rs : List ChunkResponse} {ms cs : List ℕ}

theorem ReaderInv.of_writerStep {a : WriterAction} (h : ReaderInv P f chunkSize rs ms cs s)
    (hw : WriterInv f chunkSize s) (hs : writerStep P s a = some t) :
    ReaderInv P f chunkSize rs ms cs t := by
  have hframe := writerStep_frame hs
  obtain ⟨hle, hlookup⟩ := hw.map_writerStep hs
  refine ⟨?_, h.nodup, fun id hid => ?_, h.correct_nodup, h.correct_subset, h.correct, ?_⟩
  · unfold AtReader
    rw [hframe.main, hframe.total]
    exact h.pc
  · obtain ⟨hpos, hinserted, hnone⟩ := h.matched id hid
    exact ⟨hpos, hinserted.trans hle, (hlookup id hinserted).trans hnone⟩
  · rw [hframe.total]
    exact h.total

/-- A step that matches nothing and verifies nothing only has to say where it leads. -/
theorem ReaderInv.of_frame (h : ReaderInv P f chunkSize rs ms cs s) {r : Option ChunkResponse}
    (hinserted : t.inserted = s.inserted)
    (hmap : t.inflightRequestsMap = s.inflightRequestsMap)
    (htotal : t.totalBytesVerifiedPayloadByReader = s.totalBytesVerifiedPayloadByReader)
    (hpc : AtReader P f chunkSize (rs ++ r.toList) ms cs t) :
    ReaderInv P f chunkSize (rs ++ r.toList) ms cs t := by
  refine ⟨hpc, h.nodup, fun id hid => ?_, h.correct_nodup, h.correct_subset, fun id hid => ?_, ?_⟩
  · rw [hinserted, hmap]
    exact h.matched id hid
  · obtain ⟨response, hmem, hanswer⟩ := h.correct id hid
    exact ⟨response, List.mem_append_left _ hmem, hanswer⟩
  · rw [htotal]
    exact h.total

theorem ReaderInv.of_lookup (h : ReaderInv P f chunkSize rs ms cs s) (hw : WriterInv f chunkSize s)
    (hs : mainStep P s .lookup = some t) :
    ReaderInv P f chunkSize rs (ms ++ (matchedId s (.main .lookup)).toList) cs t := by
  have hinserted := hw.inserted_mainStep hs
  obtain ⟨response, now, hm, rfl⟩ := lookup_iff.mp hs
  have hpc : response ∈ rs := by simpa only [AtReader, hm] using h.pc
  rcases lookup_cases s response now with ⟨entry, hl, heq⟩ | ⟨hl, message, heq⟩
  · obtain ⟨hentry, hbound⟩ := hw.map hl
    have hfresh : entry.clientAssignedId ∉ ms := by
      intro hmem
      obtain ⟨-, -, hnone⟩ := h.matched _ hmem
      rw [hentry.id_eq, hl] at hnone
      cases hnone
    have hobs : matchedId s (.main .lookup) = some entry.clientAssignedId := by
      simp [matchedId, hm, hl]
    rw [hobs, heq, Option.toList_some]
    rw [heq] at hinserted
    refine ⟨⟨hpc, hentry, by simp, fun hc => hfresh (h.correct_subset hc)⟩, ?_, fun id hid => ?_,
      h.correct_nodup,
      fun id hid => List.mem_append_left _ (h.correct_subset hid), h.correct, h.total⟩
    · exact List.concat_eq_append ▸ h.nodup.concat hfresh
    · rw [hinserted]
      rcases List.mem_append.mp hid with hid | hid
      · obtain ⟨hpos, hle, hnone⟩ := h.matched id hid
        refine ⟨hpos, hle, (AList.lookup_erase_ne ?_).trans hnone⟩
        rintro rfl
        exact hfresh (hentry.id_eq ▸ hid)
      · rw [List.mem_singleton.mp hid, hentry.id_eq]
        exact ⟨hentry.pos, hbound, AList.lookup_erase _ _⟩
  · have hobs : matchedId s (.main .lookup) = none := by simp [matchedId, hm, hl]
    rw [hobs, heq, Option.toList_none, List.append_nil]
    exact ⟨trivial, h.nodup, h.matched, h.correct_nodup, h.correct_subset, h.correct, h.total⟩

theorem ReaderInv.of_verify (h : ReaderInv P f chunkSize rs ms cs s)
    (hs : mainStep P s .verify = some t) :
    ReaderInv P f chunkSize rs ms (cs ++ (correctId s (.main .verify)).toList) t := by
  obtain ⟨entry, response, hm, rfl⟩ := verify_iff.mp hs
  obtain ⟨hr, hentry, hmem, hfresh⟩ := by simpa only [AtReader, hm] using h.pc
  rcases verify_cases s entry response with ⟨hdata, heq⟩ | ⟨hdata, message, heq⟩
  · have hobs : correctId s (.main .verify) = some entry.clientAssignedId := by
      simp [correctId, hm, hdata]
    have hsize : entry.originalPayloadSize =
        Blocks.size chunkSize.val f.bytes.length (entry.clientAssignedId - 1) := by
      obtain ⟨hlt, hget⟩ := List.getElem?_eq_some_iff.mp hentry.data
      rw [hentry.size, ← hget, Blocks.length_getElem_blocks, hentry.id_eq]
    rw [hobs, heq, Option.toList_some]
    refine ⟨trivial, h.nodup, h.matched, ?_, ?_, fun id hid => ?_, ?_⟩
    · exact List.concat_eq_append ▸ h.correct_nodup.concat hfresh
    · exact List.append_subset.mpr ⟨h.correct_subset, by simpa using hmem⟩
    · rcases List.mem_append.mp hid with hid | hid
      · exact h.correct id hid
      · rw [List.mem_singleton.mp hid]
        exact ⟨response, hr, hentry.id_eq.symm, _, hentry.id_eq ▸ hentry.data, hdata⟩
    · rw [List.map_append, List.sum_append, ← h.total, hsize]
      simp
  · have hobs : correctId s (.main .verify) = none := by simp [correctId, hm, hdata]
    rw [hobs, heq, Option.toList_none, List.append_nil]
    exact ⟨trivial, h.nodup, h.matched, h.correct_nodup, h.correct_subset, h.correct, h.total⟩

theorem matchedId_eq_none {a : MainAction} (s : ClientState) (ha : a ≠ .lookup) :
    matchedId s (.main a) = none := by
  cases a <;> first | rfl | exact absurd rfl ha

theorem correctId_eq_none {a : MainAction} (s : ClientState) (ha : a ≠ .verify) :
    correctId s (.main a) = none := by
  cases a <;> first | rfl | exact absurd rfl ha

/-- The other steps of the reader match nothing and verify nothing. -/
theorem ReaderInv.of_other {a : MainAction} (h : ReaderInv P f chunkSize rs ms cs s)
    (hw : WriterInv f chunkSize s) (hl : a ≠ .lookup) (hv : a ≠ .verify)
    (hs : mainStep P s a = some t) :
    ReaderInv P f chunkSize (rs ++ (received s (.main a)).toList) ms cs t := by
  have hinserted := hw.inserted_mainStep hs
  cases a with
  | lookup => exact absurd rfl hl
  | verify => exact absurd rfl hv
  | openStream ok now =>
    obtain ⟨-, rfl⟩ := openStream_iff.mp hs
    cases ok <;> exact h.of_frame hinserted rfl rfl trivial
  | read response now =>
    obtain ⟨-, rfl⟩ := read_iff.mp hs
    cases response with
    | none => exact h.of_frame hinserted rfl rfl trivial
    | some response => exact h.of_frame hinserted rfl rfl (by simp [AtReader, received])
  | throws what =>
    obtain ⟨-, rfl⟩ := main_throws_iff.mp hs
    exact h.of_frame hinserted rfl rfl trivial
  | account =>
    obtain ⟨entry, response, now, hm, rfl⟩ := account_iff.mp hs
    have hpc := h.pc
    simp only [AtReader, hm] at hpc
    exact h.of_frame hinserted rfl rfl (by
      simpa [AtReader, received, ClientState.account] using hpc)
  | join =>
    obtain ⟨-, -, rfl⟩ := join_iff.mp hs
    exact h.of_frame hinserted rfl rfl trivial
  | leftover =>
    obtain ⟨-, rfl⟩ := leftover_iff.mp hs
    rcases leftover_cases s with ⟨-, heq⟩ | ⟨-, message, heq⟩ <;>
      rw [heq] at hinserted ⊢ <;> exact h.of_frame hinserted rfl rfl trivial
  | finish status now =>
    obtain ⟨-, rfl⟩ := main_finish_iff.mp hs
    obtain ⟨m, -, ⟨-, heq⟩ | ⟨-, message, heq⟩⟩ := finish_cases s status now <;>
      rw [heq] at hinserted ⊢ <;> exact h.of_frame hinserted rfl rfl trivial
  | check =>
    obtain ⟨status, -, rfl⟩ := check_iff.mp hs
    obtain ⟨-, ⟨-, message, heq⟩ | ⟨hall, heq⟩⟩ | ⟨-, heq⟩ := check_cases P s status <;>
      rw [heq] at hinserted ⊢
    · exact h.of_frame hinserted rfl rfl trivial
    · exact h.of_frame hinserted rfl rfl hall
    · exact h.of_frame hinserted rfl rfl trivial

theorem ReaderInv.of_mainStep {a : MainAction} (h : ReaderInv P f chunkSize rs ms cs s)
    (hw : WriterInv f chunkSize s) (hs : mainStep P s a = some t) :
    ReaderInv P f chunkSize (rs ++ (received s (.main a)).toList)
      (ms ++ (matchedId s (.main a)).toList) (cs ++ (correctId s (.main a)).toList) t := by
  by_cases hl : a = .lookup
  · subst hl
    simpa [received, correctId] using h.of_lookup hw hs
  · by_cases hv : a = .verify
    · subst hv
      simpa [received, matchedId] using h.of_verify hs
    · rw [matchedId_eq_none s hl, correctId_eq_none s hv]
      simpa using h.of_other hw hl hv hs

theorem ReaderInv.of_step {a : Action} (h : ReaderInv P f chunkSize rs ms cs s)
    (hw : WriterInv f chunkSize s) (hs : step P s a = some t) :
    ReaderInv P f chunkSize (rs ++ (received s a).toList) (ms ++ (matchedId s a).toList)
      (cs ++ (correctId s a).toList) t := by
  cases a with
  | writer a => simpa [received, matchedId, correctId] using h.of_writerStep hw hs
  | main a => exact h.of_mainStep hw hs

/-- The invariant along a run, with what the run has let an observer see. -/
theorem ReaderInv.of_run {as : List Action}
    (h : run (step P) as (.init (Disk.ofFile f) chunkSize) = some t) :
    ReaderInv P f chunkSize (log (step P) received as (.init (Disk.ofFile f) chunkSize))
      (log (step P) matchedId as (.init (Disk.ofFile f) chunkSize))
      (log (step P) correctId as (.init (Disk.ofFile f) chunkSize)) t := by
  induction as using List.reverseRecOn generalizing t with
  | nil =>
    cases h
    exact readerInv_init P f chunkSize
  | append_singleton as a ih =>
    obtain ⟨s, hrun, hs⟩ := Machine.run_concat_eq_some.mp h
    simp only [Machine.log_concat _ _ hrun]
    exact (ih hrun).of_step (.of_run hrun) hs

/-! ### What follows from the invariant -/

theorem IsAnswer.lt {id : ℕ} {response : ChunkResponse} (h : IsAnswer f chunkSize id response) :
    id - 1 < Blocks.count chunkSize.val f.bytes.length := by
  obtain ⟨-, chunk, hchunk, -⟩ := h
  obtain ⟨hlt, -⟩ := List.getElem?_eq_some_iff.mp hchunk
  rwa [Blocks.length_blocks] at hlt

/-- A reader that has verified as many bytes as the file has found every chunk correct. -/
theorem ReaderInv.mem_correct (h : ReaderInv P f chunkSize rs ms cs s)
    (hall : s.totalBytesVerifiedPayloadByReader = f.bytes.length) {k : ℕ}
    (hk : k < (blocks chunkSize.val f.bytes).length) : k + 1 ∈ cs := by
  have hpos : ∀ id ∈ cs, 0 < id := fun id hid => (h.matched id (h.correct_subset hid)).1
  have hnodup : (cs.map fun id => id - 1).Nodup := by
    apply h.correct_nodup.map_on
    intro i hi j hj heq
    have := hpos i hi
    have := hpos j hj
    omega
  have hlt : ∀ i ∈ cs.map fun id => id - 1,
      i < Blocks.count chunkSize.val f.bytes.length := by
    intro i hi
    obtain ⟨id, hid, rfl⟩ := List.mem_map.mp hi
    obtain ⟨response, -, hanswer⟩ := h.correct id hid
    exact hanswer.lt
  have hsum : ((cs.map fun id => id - 1).map (Blocks.size chunkSize.val f.bytes.length)).sum =
      f.bytes.length := by
    rw [List.map_map]
    exact h.total.symm.trans hall
  have hmem := Blocks.mem_of_sum_size chunkSize.pos hnodup hlt hsum
    (Blocks.length_blocks ▸ hk)
  obtain ⟨id, hid, heq⟩ := List.mem_map.mp hmem
  have hid' : id = k + 1 := by
    have := hpos id hid
    omega
  exact hid' ▸ hid

end ReversalBench.Grpc
