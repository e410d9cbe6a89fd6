import ReversalBench.Grpc.Invariant

/-! The shutdown of the gRPC client. Once the read loop has ended nothing leaves the map
any more, but the writer goes on; if the map fills up, the writer waits for room that
nobody makes, and `join` waits for the writer. Only a file with fewer chunks than the
window cannot fill the map. -/

namespace ReversalBench.Grpc

open Blocks (blocks)
open Machine (run)

variable {P : Params} {f : File} {chunkSize : ChunkSize} {s t : ClientState}

/-- The reader waits in `join` for the writer, which waits for room in the full map. -/
def ClientState.Stuck (P : Params) (s : ClientState) : Prop :=
  s.main = .join ∧ s.writer = .wait ∧ ¬s.HasRoom P

/-- A step of the writer in which nothing fails. -/
def WriterAction.succeeds : WriterAction → Bool
  | .throws _ => false
  | .write ok | .writesDone ok => ok
  | _ => true

/-- The writer can get to its end by its own steps, without a failure. -/
def ClientState.WriterCanEnd (P : Params) (s : ClientState) : Prop :=
  ∃ as t, (∀ a ∈ as, WriterAction.succeeds a = true) ∧ run (writerStep P) as s = some t ∧
    t.writer = .done

/-! ### A blocked writer -/

theorem ClientState.Stuck.writerStep_eq_none (h : s.Stuck P) (a : WriterAction) :
    writerStep P s a = none := by
  obtain ⟨-, hw, hroom⟩ := h
  cases a <;> simp [writerStep, hw, hroom, WriterPc.inLoop]

theorem ClientState.Stuck.not_writerCanEnd (h : s.Stuck P) : ¬s.WriterCanEnd P := by
  rintro ⟨as, t, -, hrun, hdone⟩
  cases as with
  | nil =>
    cases hrun
    rw [h.2.1] at hdone
    cases hdone
  | cons a as =>
    rw [Machine.run_cons, h.writerStep_eq_none a] at hrun
    cases hrun

/-! ### A file with fewer chunks than the window -/

/-- The map holds at most the chunks of the file. -/
theorem WriterInv.length_keys_le (h : WriterInv f chunkSize s) :
    s.inflightRequestsMap.keys.length ≤ Blocks.count chunkSize.val f.bytes.length := by
  have hsub : s.inflightRequestsMap.keys ⊆
      (List.range (Blocks.count chunkSize.val f.bytes.length)).map (· + 1) := by
    intro id hid
    obtain ⟨entry, hl⟩ := Option.isSome_iff_exists.mp (AList.lookup_isSome.mpr hid)
    obtain ⟨hentry, -⟩ := h.map hl
    have hle := hentry.le
    rw [Blocks.length_blocks] at hle
    have hpos := hentry.pos
    refine List.mem_map.mpr ⟨id - 1, List.mem_range.mpr ?_, ?_⟩ <;> omega
  have hlen := (List.subperm_of_subset s.inflightRequestsMap.keys_nodup hsub).length_le
  rwa [List.length_map, List.length_range] at hlen

theorem WriterInv.hasRoom (h : WriterInv f chunkSize s)
    (hcount : Blocks.count chunkSize.val f.bytes.length < P.maxInflightRequests) :
    s.HasRoom P :=
  h.length_keys_le.trans_lt hcount

/-- How many steps the writer can still take. -/
def ClientState.writerRank (f : File) (chunkSize : ChunkSize) (s : ClientState) : ℕ :=
  let unread := (blocks chunkSize.val f.bytes).length - s.clientChunkIdCounter
  match s.writer with
  | .notStarted | .done => 0
  | .notifyAll => 1
  | .writesDone => 2
  | .finish => 3
  | .nextChunk => 4 * unread + 5
  | .wait => 4 * unread + 6
  | .insert _ => 4 * unread + 7
  | .write _ _ => 4 * unread + 8

theorem WriterInv.writerRank_lt {a : WriterAction} (h : WriterInv f chunkSize s)
    (hs : writerStep P s a = some t) : t.writerRank f chunkSize < s.writerRank f chunkSize := by
  cases a with
  | wake =>
    obtain ⟨hw, -, rfl⟩ := wake_iff.mp hs
    simp [ClientState.writerRank, hw]
  | nextChunk now =>
    obtain ⟨hw, rfl⟩ := nextChunk_iff.mp hs
    obtain ⟨hreader, -⟩ := by simpa only [AtWriter, hw] using h.pc
    rcases @prepare_ofFile P _ _ _ hreader h.counter_le now with
      ⟨-, hp⟩ | ⟨hlt, -, request, entry, hp, -⟩
    · simp only [hp, ClientState.writerRank, hw]
      omega
    · simp only [hp, ClientState.writerRank, hw]
      omega
  | throws what =>
    obtain ⟨hw, rfl⟩ := writer_throws_iff.mp hs
    have hrank : (s.writerThrows what).writerRank f chunkSize = 3 := rfl
    rw [hrank]
    cases hwriter : s.writer with
    | nextChunk | write request entry | insert entry =>
      simp only [ClientState.writerRank, hwriter]
      omega
    | _ =>
      rw [hwriter] at hw
      cases hw
  | write ok =>
    obtain ⟨request, entry, hw, rfl⟩ := write_iff.mp hs
    cases ok with
    | true => simp [ClientState.writerRank, hw]
    | false =>
      simp only [ClientState.writerRank, hw, Bool.false_eq_true, if_false]
      omega
  | insert =>
    obtain ⟨entry, hw, rfl⟩ := insert_iff.mp hs
    simp [ClientState.writerRank, hw]
  | finish =>
    obtain ⟨hw, rfl⟩ := writer_finish_iff.mp hs
    cases hb : s.writerStreamBroken <;> simp [ClientState.writerRank, hw]
  | writesDone ok =>
    obtain ⟨hw, rfl⟩ := writesDone_iff.mp hs
    simp [ClientState.writerRank, hw]
  | notifyAll =>
    obtain ⟨hw, rfl⟩ := notifyAll_iff.mp hs
    simp [ClientState.writerRank, hw]

/-- A writer that was started and finds room whenever it waits can take a step. -/
theorem writer_progress (hroom : s.HasRoom P) (hstarted : s.writer ≠ .notStarted)
    (hdone : s.writer ≠ .done) :
    ∃ a t, WriterAction.succeeds a = true ∧ writerStep P s a = some t := by
  cases hw : s.writer with
  | notStarted => exact absurd hw hstarted
  | wait => exact ⟨.wake, _, rfl, wake_iff.mpr ⟨hw, hroom, rfl⟩⟩
  | nextChunk => exact ⟨.nextChunk 0, _, rfl, nextChunk_iff.mpr ⟨hw, rfl⟩⟩
  | write request entry => exact ⟨.write true, _, rfl, write_iff.mpr ⟨request, entry, hw, rfl⟩⟩
  | insert entry => exact ⟨.insert, _, rfl, insert_iff.mpr ⟨entry, hw, rfl⟩⟩
  | finish => exact ⟨.finish, _, rfl, writer_finish_iff.mpr ⟨hw, rfl⟩⟩
  | writesDone => exact ⟨.writesDone true, _, rfl, writesDone_iff.mpr ⟨hw, rfl⟩⟩
  | notifyAll => exact ⟨.notifyAll, _, rfl, notifyAll_iff.mpr ⟨hw, rfl⟩⟩
  | done => exact absurd hw hdone

/-- The writer ends, since each step brings it closer to its end. -/
theorem WriterInv.writerCanEnd (h : WriterInv f chunkSize s)
    (hcount : Blocks.count chunkSize.val f.bytes.length < P.maxInflightRequests)
    (hstarted : s.writer ≠ .notStarted) : s.WriterCanEnd P := by
  induction hrank : s.writerRank f chunkSize using Nat.strong_induction_on generalizing s with
  | h n ih =>
    by_cases hdone : s.writer = .done
    · exact ⟨[], s, by simp, rfl, hdone⟩
    · obtain ⟨a, t, ha, hs⟩ := writer_progress (h.hasRoom hcount) hstarted hdone
      obtain ⟨as, u, has, hrun, hu⟩ := ih _ (hrank ▸ h.writerRank_lt hs) (h.of_writerStep hs)
        (writerStep_frame hs).running rfl
      refine ⟨a :: as, u, ?_, ?_, hu⟩
      · simpa [ha] using has
      · rw [Machine.run_cons, hs]
        exact hrun

/-- A thread that has not been started belongs to a call that has not opened its stream. -/
theorem main_of_notStarted {as : List Action}
    (h : run (step P) as (.init (Disk.ofFile f) chunkSize) = some t)
    (hw : t.writer = .notStarted) : t.main = .start ∨ t.main = .returned false := by
  revert hw
  refine Machine.invariant_run (P := fun t : ClientState => t.writer = .notStarted →
    t.main = .start ∨ t.main = .returned false) ?_ (fun _ => .inl rfl) h
  intro s a t hinv hs hw
  cases a with
  | writer a =>
    exact absurd hw (writerStep_frame hs).running
  | main a =>
    change mainStep P s a = some t at hs
    rcases (mainStep_frame hs).writer with hsw | ⟨-, hwait⟩
    · rcases hinv (hsw ▸ hw) with hm | hm
      · cases a with
        | openStream ok now =>
          obtain ⟨-, rfl⟩ := openStream_iff.mp hs
          cases ok with
          | true => cases hw
          | false => exact .inr rfl
        | _ => simp [mainStep, hm, MainPc.inLoop] at hs
      · cases a <;> simp [mainStep, hm, MainPc.inLoop] at hs
    · rw [hwait] at hw
      cases hw

/-! ### A file that fills the window -/

/-- The next id of the writer is not in the map. -/
theorem WriterInv.not_mem_keys (h : WriterInv f chunkSize s) (hw : s.writer = .wait) :
    s.clientChunkIdCounter + 1 ∉ s.inflightRequestsMap.keys := by
  intro hmem
  obtain ⟨entry, hl⟩ := Option.isSome_iff_exists.mp (AList.lookup_isSome.mpr hmem)
  obtain ⟨-, hle⟩ := h.map hl
  obtain ⟨-, hsent, -⟩ := by simpa only [AtWriter, hw] using h.pc
  simp only [ClientState.inserted, hw] at hle
  omega

/-- A round of the writer in which the write succeeds. -/
theorem WriterInv.round (h : WriterInv f chunkSize s) (hw : s.writer = .wait)
    (hroom : s.HasRoom P) (hlt : s.clientChunkIdCounter < (blocks chunkSize.val f.bytes).length) :
    ∃ as t, run (step P) as s = some t ∧ t.writer = .wait ∧ t.main = s.main ∧
      t.clientChunkIdCounter = s.clientChunkIdCounter + 1 ∧
      t.inflightRequestsMap.keys.length = s.inflightRequestsMap.keys.length + 1 := by
  have hwake : step P s (.writer .wake) = some { s with writer := .nextChunk } := by
    simp [step, writerStep, hw, hroom]
  obtain ⟨hreader, -⟩ := by simpa only [AtWriter, hw] using h.pc
  obtain ⟨hend, -⟩ | ⟨-, -, request, entry, hp, hentry, -⟩ :=
    @prepare_ofFile P f chunkSize { s with writer := .nextChunk } hreader h.counter_le 0
  · exact absurd hend hlt.ne
  · let t : ClientState := { s with
      reader := s.reader.nextChunk.2
      clientChunkIdCounter := s.clientChunkIdCounter + 1
      totalChunksActuallySentByWriter := s.totalChunksActuallySentByWriter + 1
      inflightRequestsMap := s.inflightRequestsMap.insert entry.clientAssignedId entry
      writer := .wait }
    refine ⟨[.writer .wake, .writer (.nextChunk 0), .writer (.write true), .writer .insert], t,
      ?_, rfl, rfl, rfl, ?_⟩
    · rw [Machine.run_cons, hwake, Option.bind_some, Machine.run_cons]
      show (some (ClientState.prepare P _ 0)).bind _ = _
      rw [hp]
      rfl
    · have hkeys := h.not_mem_keys hw
      rw [← hentry.id_eq] at hkeys
      simp [t, AList.keys_insert, List.erase_of_not_mem hkeys]

/-- The writer can enter `k` chunks before the reader gets a response. -/
theorem exists_fill {k : ℕ} (hk : k ≤ P.maxInflightRequests)
    (hcount : k ≤ (blocks chunkSize.val f.bytes).length) :
    ∃ as t, run (step P) as (.init (Disk.ofFile f) chunkSize) = some t ∧ t.writer = .wait ∧
      t.main = .read ∧ t.clientChunkIdCounter = k ∧ t.inflightRequestsMap.keys.length = k := by
  induction k with
  | zero => exact ⟨[.main (.openStream true 0)], _, rfl, rfl, rfl, rfl, rfl⟩
  | succ k ih =>
    obtain ⟨as, s, hrun, hw, hm, hcounter, hkeys⟩ := ih (by omega) (by omega)
    have hroom : s.HasRoom P := by
      show s.inflightRequestsMap.keys.length < P.maxInflightRequests
      omega
    obtain ⟨bs, t, hround, htw, htm, htcounter, htkeys⟩ :=
      (WriterInv.of_run hrun).round hw hroom (by omega)
    refine ⟨as ++ bs, t, Machine.run_trans hrun hround, htw, htm.trans hm, ?_, ?_⟩
    · rw [htcounter, hcounter]
    · rw [htkeys, hkeys]

/-- When the stream breaks while the window is full, the reader joins a blocked writer. -/
theorem exists_stuck
    (hcount : P.maxInflightRequests ≤ Blocks.count chunkSize.val f.bytes.length) :
    ∃ as t, run (step P) as (.init (Disk.ofFile f) chunkSize) = some t ∧ t.Stuck P := by
  rw [← Blocks.length_blocks] at hcount
  obtain ⟨as, s, hrun, hw, hm, -, hkeys⟩ := exists_fill le_rfl hcount
  have hread : step P s (.main (.read none 0)) = some { s with main := .join } := by
    simp [step, mainStep, hm]
  exact ⟨_, _, Machine.run_trans hrun (Machine.run_of_step hread), rfl, hw, hkeys.ge.not_gt⟩

/-- The shutdown cannot get stuck, and the writer can always end once the read loop has,
exactly for the files with fewer chunks than the window has places. -/
theorem shutdown_iff (P : Params) (f : File) (chunkSize : ChunkSize) :
    ((∀ as t, run (step P) as (.init (Disk.ofFile f) chunkSize) = some t → ¬t.Stuck P) ↔
      Blocks.count chunkSize.val f.bytes.length < P.maxInflightRequests) ∧
    ((∀ as t, run (step P) as (.init (Disk.ofFile f) chunkSize) = some t → t.main = .join →
        t.WriterCanEnd P) ↔
      Blocks.count chunkSize.val f.bytes.length < P.maxInflightRequests) := by
  refine ⟨⟨fun h => ?_, fun hcount as t hrun hstuck => ?_⟩,
    ⟨fun h => ?_, fun hcount as t hrun hm => ?_⟩⟩
  · by_contra hcount
    obtain ⟨as, t, hrun, hstuck⟩ := exists_stuck (not_lt.mp hcount)
    exact h as t hrun hstuck
  · exact hstuck.2.2 ((WriterInv.of_run hrun).hasRoom hcount)
  · by_contra hcount
    obtain ⟨as, t, hrun, hstuck⟩ := exists_stuck (not_lt.mp hcount)
    exact hstuck.not_writerCanEnd (h as t hrun hstuck.1)
  · apply (WriterInv.of_run hrun).writerCanEnd hcount
    intro hw
    rcases main_of_notStarted hrun hw with hstart | hreturned
    · rw [hstart] at hm
      cases hm
    · rw [hreturned] at hm
      cases hm

/-- With the constants of the program, on a file of the size that it expects. -/
theorem shutdown_stuck : ∃ as t, run (step (.shipped fun request => request.dataChunk.length)) as
      (.init (Disk.ofFile ⟨List.replicate (10 * 1024 * 1024 * 1024) 0, by
        rw [List.length_replicate]
        decide⟩) chunkSizeBytes) = some t ∧
    t.Stuck (.shipped fun request => request.dataChunk.length) := by
  apply exists_stuck
  rw [List.length_replicate]
  decide

end ReversalBench.Grpc
