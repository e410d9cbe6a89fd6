import ReversalBench.Grpc.Matching

/-! What the gRPC client reports. Every way to lose data logs an error, except one: a
failed `Write` only sets `writer_stream_broken`, and the final comparison of the verified
bytes is skipped when that flag is set. -/

namespace ReversalBench.Grpc

open Blocks (blocks)
open Machine (run Sometime)

variable {P : Params} {f : File} {chunkSize : ChunkSize} {s t : ClientState}

/-- A `Write` that fails. -/
def WriteFails (_ : ClientState) (a : Action) : Prop :=
  a = .writer (.write false)

/-- The branches that log an error, the final comparison apart. -/
def Reports (s : ClientState) : Action → Prop
  | .main (.openStream ok _) => ok = false
  | .writer (.nextChunk _) => s.reader.nextChunk.1 = [] ∧ s.reader.nextChunk.2.eof = false
  | .writer (.throws _) | .main (.throws _) => True
  | .main .lookup =>
    match s.main with
    | .lookup response _ =>
      s.inflightRequestsMap.lookup (toSizeT response.originalClientChunkId) = none
    | _ => False
  | .main .verify =>
    match s.main with
    | .verify entry response =>
      response.reversedChunkData ≠ entry.originalDataForVerification.reverse
    | _ => False
  | .main .leftover => s.inflightRequestsMap.keys ≠ []
  | .main (.finish status _) => status.ok = false
  | _ => False

/-- A step either reports, and logs one error, or leaves the errors alone. -/
def Logs (s t : ClientState) (reports : Prop) : Prop :=
  (¬reports ∧ t.metricsCollector.errors = s.metricsCollector.errors) ∨
    (reports ∧ ∃ message, t.metricsCollector.errors = s.metricsCollector.errors ++ [message])

/-- The writer thread has left its loop in the regular way. -/
def WriterPc.AfterFinish (pc : WriterPc) : Prop :=
  pc = .writesDone ∨ pc = .notifyAll ∨ pc = .done

/-- What a step of the writer does to the flags and the errors. -/
structure WriterEffect (s : ClientState) (a : WriterAction) (t : ClientState) : Prop where
  logs : Logs s t (Reports s (.writer a))
  sent : a ≠ .write true → t.totalChunksActuallySentByWriter = s.totalChunksActuallySentByWriter
  broken : t.writerStreamBroken = true ↔
    s.writerStreamBroken = true ∨ WriteFails s (.writer a) ∨ Reports s (.writer a)
  finished : t.writer.AfterFinish →
    (s.writer.AfterFinish ∧ t.writerThreadFinishedSending = s.writerThreadFinishedSending) ∨
      t.writerThreadFinishedSending = true ∨ Reports s (.writer a)

theorem writerStep_effect {a : WriterAction} (hs : writerStep P s a = some t) :
    WriterEffect s a t := by
  cases a with
  | wake =>
    obtain ⟨-, -, rfl⟩ := wake_iff.mp hs
    exact ⟨.inl ⟨id, rfl⟩, fun _ => rfl, by simp [WriteFails, Reports],
      by simp [WriterPc.AfterFinish]⟩
  | nextChunk now =>
    obtain ⟨-, rfl⟩ := nextChunk_iff.mp hs
    rcases prepare_cases P s now with ⟨-, heof, hp⟩ | ⟨hnil, heof, hp⟩ | ⟨hne, _, _, hp, -⟩
    · have hno : ¬Reports s (.writer (.nextChunk now)) := by simp [Reports, heof]
      exact ⟨.inl ⟨hno, by rw [hp]⟩, fun _ => by rw [hp], by simp [hp, WriteFails, hno],
        by simp [hp, WriterPc.AfterFinish]⟩
    · have hyes : Reports s (.writer (.nextChunk now)) := ⟨hnil, heof⟩
      exact ⟨.inr ⟨hyes, _, by rw [hp]; rfl⟩, fun _ => by rw [hp]; rfl, by simp [hp, hyes],
        fun _ => .inr (.inr hyes)⟩
    · have hno : ¬Reports s (.writer (.nextChunk now)) := by simp [Reports, hne]
      exact ⟨.inl ⟨hno, by rw [hp]⟩, fun _ => by rw [hp], by simp [hp, WriteFails, hno],
        by simp [hp, WriterPc.AfterFinish]⟩
  | throws what =>
    obtain ⟨-, rfl⟩ := writer_throws_iff.mp hs
    exact ⟨.inr ⟨trivial, _, rfl⟩, fun _ => rfl, by simp [ClientState.writerThrows, Reports],
      fun _ => .inr (.inr trivial)⟩
  | write ok =>
    obtain ⟨_, _, -, rfl⟩ := write_iff.mp hs
    cases ok with
    | true =>
      exact ⟨.inl ⟨id, rfl⟩, fun h => absurd rfl h, by simp [WriteFails, Reports],
        by simp [WriterPc.AfterFinish]⟩
    | false =>
      exact ⟨.inl ⟨id, rfl⟩, fun _ => rfl, by simp [WriteFails], by simp [WriterPc.AfterFinish]⟩
  | insert =>
    obtain ⟨_, -, rfl⟩ := insert_iff.mp hs
    exact ⟨.inl ⟨id, rfl⟩, fun _ => rfl, by simp [WriteFails, Reports],
      by simp [WriterPc.AfterFinish]⟩
  | finish =>
    obtain ⟨-, rfl⟩ := writer_finish_iff.mp hs
    exact ⟨.inl ⟨id, rfl⟩, fun _ => rfl, by simp [WriteFails, Reports], fun _ => .inr (.inl rfl)⟩
  | writesDone ok =>
    obtain ⟨hw, rfl⟩ := writesDone_iff.mp hs
    exact ⟨.inl ⟨id, rfl⟩, fun _ => rfl, by simp [WriteFails, Reports],
      fun _ => .inl ⟨.inl hw, rfl⟩⟩
  | notifyAll =>
    obtain ⟨hw, rfl⟩ := notifyAll_iff.mp hs
    exact ⟨.inl ⟨id, rfl⟩, fun _ => rfl, by simp [WriteFails, Reports],
      fun _ => .inl ⟨.inr (.inl hw), rfl⟩⟩

theorem logs_mainStep {a : MainAction} (ha : a ≠ .check) (hs : mainStep P s a = some t) :
    Logs s t (Reports s (.main a)) := by
  cases a with
  | openStream ok now =>
    obtain ⟨-, rfl⟩ := openStream_iff.mp hs
    cases ok with
    | true => exact .inl ⟨Bool.noConfusion, rfl⟩
    | false => exact .inr ⟨rfl, _, rfl⟩
  | read response now => obtain ⟨-, rfl⟩ := read_iff.mp hs; exact .inl ⟨id, rfl⟩
  | throws what => obtain ⟨-, rfl⟩ := main_throws_iff.mp hs; exact .inr ⟨trivial, _, rfl⟩
  | lookup =>
    obtain ⟨response, now, hm, rfl⟩ := lookup_iff.mp hs
    simp only [Logs, Reports, hm]
    rcases lookup_cases s response now with ⟨entry, hl, heq⟩ | ⟨hl, message, heq⟩
    · exact .inl ⟨by simp [hl], by rw [heq]⟩
    · exact .inr ⟨hl, message, by rw [heq]; rfl⟩
  | account => obtain ⟨_, _, _, -, rfl⟩ := account_iff.mp hs; exact .inl ⟨id, rfl⟩
  | verify =>
    obtain ⟨entry, response, hm, rfl⟩ := verify_iff.mp hs
    simp only [Logs, Reports, hm]
    rcases verify_cases s entry response with ⟨hdata, heq⟩ | ⟨hdata, message, heq⟩
    · exact .inl ⟨fun h => h hdata, by rw [heq]⟩
    · exact .inr ⟨hdata, message, by rw [heq]; rfl⟩
  | join => obtain ⟨-, -, rfl⟩ := join_iff.mp hs; exact .inl ⟨id, rfl⟩
  | leftover =>
    obtain ⟨-, rfl⟩ := leftover_iff.mp hs
    rcases leftover_cases s with ⟨hnil, heq⟩ | ⟨hne, message, heq⟩
    · exact .inl ⟨fun h => h hnil, by rw [heq]⟩
    · exact .inr ⟨hne, message, by rw [heq]; rfl⟩
  | finish status now =>
    obtain ⟨-, rfl⟩ := main_finish_iff.mp hs
    obtain ⟨m, hm, ⟨hok, heq⟩ | ⟨hok, message, heq⟩⟩ := finish_cases s status now
    · exact .inl ⟨fun h => Bool.noConfusion (hok.symm.trans h), by rw [heq]; exact hm⟩
    · exact .inr ⟨hok, message, by rw [heq, ← hm]; rfl⟩
  | check => exact absurd rfl ha

theorem Logs.errors_eq_nil_iff {reported reports : Prop} (h : Logs s t reports)
    (hs : s.metricsCollector.errors = [] ↔ ¬reported) :
    t.metricsCollector.errors = [] ↔ ¬(reported ∨ reports) := by
  rcases h with ⟨hno, heq⟩ | ⟨hyes, message, heq⟩
  · simp [heq, hs, hno]
  · simp [heq, hyes]

/-! ### The writer thread is joined -/

/-- The writer thread has been joined, and `ProcessFile` has not returned. -/
def MainPc.AfterJoin (pc : MainPc) : Prop :=
  pc = .leftover ∨ pc = .finish ∨ ∃ status, pc = .check status

/-- `ProcessFile` does not go on before the writer thread has ended. -/
structure JoinInv (s : ClientState) : Prop where
  joined : s.main.AfterJoin → s.writer = .done
  returned : ∀ {allVerified}, s.main = .returned allVerified →
    s.writer = .done ∨ s.writer = .notStarted

theorem joinInv_init (disk : Disk) (chunkSize : ChunkSize) : JoinInv (.init disk chunkSize) where
  joined := by simp [MainPc.AfterJoin, ClientState.init]
  returned := by simp [ClientState.init]

theorem JoinInv.of_writerStep {a : WriterAction} (h : JoinInv s)
    (hs : writerStep P s a = some t) : JoinInv t := by
  have hframe := writerStep_frame hs
  constructor
  · intro hm
    exact absurd (h.joined (hframe.main ▸ hm)) hframe.not_done
  · intro allVerified hm
    rcases h.returned (hframe.main ▸ hm) with hw | hw
    · exact absurd hw hframe.not_done
    · exact absurd hw hframe.started

theorem JoinInv.of_mainStep {a : MainAction} (h : JoinInv s) (hw : WriterInv f chunkSize s)
    (hs : mainStep P s a = some t) : JoinInv t := by
  have henters := mainStep_enters hs
  have hkeep : s.main ≠ .start → t.writer = s.writer := fun hm =>
    (mainStep_frame hs).writer.resolve_right fun hstart => hm hstart.1
  constructor
  · rintro (hm | hm | ⟨status, hm⟩)
    · obtain rfl := henters.leftover hm
      obtain ⟨-, hdone, rfl⟩ := join_iff.mp hs
      exact hdone
    · obtain rfl := henters.finish hm
      obtain ⟨hm, -⟩ := leftover_iff.mp hs
      exact (hkeep (by simp [hm])).trans (h.joined (.inl hm))
    · obtain ⟨now, rfl⟩ := henters.check hm
      obtain ⟨hm, -⟩ := main_finish_iff.mp hs
      exact (hkeep (by simp [hm])).trans (h.joined (.inr (.inl hm)))
  · intro allVerified hm
    rcases henters.returned hm with rfl | ⟨now, rfl⟩
    · obtain ⟨status, hm, -⟩ := check_iff.mp hs
      exact .inl ((hkeep (by simp [hm])).trans (h.joined (.inr (.inr ⟨status, hm⟩))))
    · obtain ⟨hstart, rfl⟩ := openStream_iff.mp hs
      exact .inr (hw.start hstart)

theorem JoinInv.of_run {as : List Action}
    (h : run (step P) as (.init (Disk.ofFile f) chunkSize) = some t) : JoinInv t := by
  suffices WriterInv f chunkSize t ∧ JoinInv t from this.2
  refine Machine.invariant_run (P := fun t => WriterInv f chunkSize t ∧ JoinInv t) ?_
    ⟨writerInv_init f chunkSize, joinInv_init _ chunkSize⟩ h
  rintro s a t ⟨hw, hj⟩ hs
  refine ⟨hw.of_step hs, ?_⟩
  cases a with
  | writer a => exact hj.of_writerStep hs
  | main a => exact hj.of_mainStep hw hs

/-- Once `ProcessFile` has returned nothing happens any more. -/
theorem JoinInv.main_ne_returned {a : Action} (h : JoinInv s) (hs : step P s a = some t)
    (allVerified : Bool) : s.main ≠ .returned allVerified := by
  intro hm
  cases a with
  | writer a =>
    have hframe := writerStep_frame hs
    rcases h.returned hm with hw | hw
    · exact hframe.not_done hw
    · exact hframe.started hw
  | main a => cases a <;> simp [step, mainStep, hm, MainPc.inLoop] at hs

/-! ### Before the final comparison -/

/-- The flags and the errors, when a `Write` may have failed and an error been reported. -/
structure ErrorInv (f : File) (chunkSize : ChunkSize) (writeFailed reported : Prop)
    (s : ClientState) : Prop where
  errors : s.metricsCollector.errors = [] ↔ ¬reported
  failed : writeFailed → s.writerStreamBroken = true ∧
    s.totalChunksActuallySentByWriter < (blocks chunkSize.val f.bytes).length
  broken : s.writerStreamBroken = true → writeFailed ∨ reported
  finished : s.writer.AfterFinish → s.writerThreadFinishedSending = true ∨ reported
  status : ∀ {status}, s.main = .check status → status.ok = true ∨ reported

theorem errorInv_init (f : File) (chunkSize : ChunkSize) :
    ErrorInv f chunkSize False False (.init (Disk.ofFile f) chunkSize) where
  errors := by simp [ClientState.init, Common.MetricsAggregator.new]
  failed := False.elim
  broken := Bool.noConfusion
  finished := by simp [WriterPc.AfterFinish, ClientState.init]
  status := by simp [ClientState.init]

/-- A write fails before the last chunk has been sent. -/
theorem WriterInv.writeFails (h : WriterInv f chunkSize s)
    (hs : writerStep P s (.write false) = some t) : t.writerStreamBroken = true ∧
      t.totalChunksActuallySentByWriter < (blocks chunkSize.val f.bytes).length := by
  obtain ⟨_, _, hw, rfl⟩ := write_iff.mp hs
  obtain ⟨-, hsent, -⟩ := by simpa only [AtWriter, hw] using h.pc
  exact ⟨rfl, hsent.trans_le h.counter_le⟩

variable {writeFailed reported : Prop}

theorem ErrorInv.of_writerStep {a : WriterAction} (h : ErrorInv f chunkSize writeFailed reported s)
    (hw : WriterInv f chunkSize s) (hj : JoinInv s) (hs : writerStep P s a = some t) :
    ErrorInv f chunkSize (writeFailed ∨ WriteFails s (.writer a)) (reported ∨ Reports s (.writer a))
      t := by
  have hframe := writerStep_frame hs
  have heffect := writerStep_effect hs
  constructor
  · exact heffect.logs.errors_eq_nil_iff h.errors
  · rintro (hf | hf)
    · obtain ⟨hb, hlt⟩ := h.failed hf
      refine ⟨heffect.broken.mpr (.inl hb), ?_⟩
      rw [heffect.sent]
      · exact hlt
      -- a writer that can still write has not seen its stream break
      · rintro rfl
        obtain ⟨_, _, hpc, -⟩ := write_iff.mp hs
        obtain ⟨-, -, hnot, -⟩ := by simpa only [AtWriter, hpc] using hw.pc
        exact Bool.noConfusion (hb.symm.trans hnot)
    · cases hf
      exact hw.writeFails hs
  · intro hb
    rcases heffect.broken.mp hb with hb | hf | hr
    · exact (h.broken hb).imp .inl .inl
    · exact .inl (.inr hf)
    · exact .inr (.inr hr)
  · intro hpc
    rcases heffect.finished hpc with ⟨hpc, heq⟩ | hfin | hr
    · exact (h.finished hpc).imp heq.trans .inl
    · exact .inl hfin
    · exact .inr (.inr hr)
  · intro status hm
    exact absurd (hj.joined (.inr (.inr ⟨status, hframe.main ▸ hm⟩))) hframe.not_done

theorem ErrorInv.of_mainStep {a : MainAction} (h : ErrorInv f chunkSize writeFailed reported s)
    (ha : a ≠ .check) (hs : mainStep P s a = some t) :
    ErrorInv f chunkSize (writeFailed ∨ WriteFails s (.main a)) (reported ∨ Reports s (.main a))
      t := by
  have hframe := mainStep_frame hs
  constructor
  · exact (logs_mainStep ha hs).errors_eq_nil_iff h.errors
  · rintro (hf | hf)
    · rw [hframe.broken, hframe.sent]
      exact h.failed hf
    · cases hf
  · intro hb
    exact (h.broken (hframe.broken ▸ hb)).imp .inl .inl
  · intro hpc
    rcases hframe.writer with hw | ⟨-, hw⟩
    · exact (h.finished (hw ▸ hpc)).imp hframe.finished.trans .inl
    · simp [WriterPc.AfterFinish, hw] at hpc
  · intro status hm
    obtain ⟨now, rfl⟩ := (mainStep_enters hs).check hm
    cases hok : status.ok with
    | true => exact .inl rfl
    | false => exact .inr (.inr hok)

/-- The invariant along a run that has not yet ended. -/
theorem ErrorInv.of_run {as : List Action}
    (h : run (step P) as (.init (Disk.ofFile f) chunkSize) = some t)
    (hret : ∀ allVerified, t.main ≠ .returned allVerified) :
    ErrorInv f chunkSize (Sometime (step P) WriteFails as (.init (Disk.ofFile f) chunkSize))
      (Sometime (step P) Reports as (.init (Disk.ofFile f) chunkSize)) t := by
  induction as using List.reverseRecOn generalizing t with
  | nil =>
    cases h
    exact errorInv_init f chunkSize
  | append_singleton as a ih =>
    obtain ⟨s, hrun, hs⟩ := Machine.run_concat_eq_some.mp h
    have hj := JoinInv.of_run hrun
    have hinv := ih hrun (hj.main_ne_returned hs)
    rw [Machine.sometime_concat hrun, Machine.sometime_concat hrun]
    cases a with
    | writer a => exact hinv.of_writerStep (.of_run hrun) hj hs
    | main a =>
      refine hinv.of_mainStep ?_ hs
      rintro rfl
      obtain ⟨status, -, rfl⟩ := check_iff.mp hs
      obtain ⟨-, ⟨-, message, heq⟩ | ⟨-, heq⟩⟩ | ⟨-, heq⟩ := check_cases P s status
      · exact hret false (by rw [heq])
      · exact hret true (by rw [heq])
      · exact hret false (by rw [heq])

/-! ### The final comparison -/

/-- After a failed write the verified bytes are not the whole file. -/
theorem ErrorInv.verified_ne (h : ErrorInv f chunkSize writeFailed reported s)
    {rs : List ChunkResponse} {ms cs : List ℕ} (hr : ReaderInv P f chunkSize rs ms cs s)
    (hf : writeFailed) : s.totalBytesVerifiedPayloadByReader ≠ f.bytes.length := by
  intro hall
  obtain ⟨-, hlt⟩ := h.failed hf
  have hmem := hr.mem_correct hall hlt
  obtain ⟨-, hle, -⟩ := hr.matched _ (hr.correct_subset hmem)
  have hinserted : s.inserted ≤ s.totalChunksActuallySentByWriter := by
    unfold ClientState.inserted
    split
    · exact Nat.sub_le _ _
    · exact le_rfl
  omega

/-- The final comparison is the last chance to report a loss. -/
theorem ErrorInv.check (h : ErrorInv f chunkSize writeFailed reported s) (hj : JoinInv s)
    {status : Status} (hm : s.main = .check status)
    (hloss : writeFailed → s.totalBytesVerifiedPayloadByReader ≠ P.actualFileSizeBytes) :
    ((s.check P status).metricsCollector.errors = [] →
        (s.check P status).totalBytesVerifiedPayloadByReader = P.actualFileSizeBytes) ↔
      ¬writeFailed ∨ reported := by
  have hdone := hj.joined (.inr (.inr ⟨status, hm⟩))
  obtain ⟨⟨-, hbroken, -⟩, ⟨-, message, heq⟩ | ⟨hall, heq⟩⟩ | ⟨hbad, heq⟩ :=
    check_cases P s status
  · have hnot : ¬writeFailed := fun hf => Bool.noConfusion ((h.failed hf).1.symm.trans hbroken)
    simp [heq, ClientState.logError, hnot]
  · have hnot : ¬writeFailed := fun hf => hloss hf hall
    simp [heq, hall, hnot]
  · rw [heq]
    show (s.metricsCollector.errors = [] → _) ↔ _
    rw [h.errors]
    -- nothing is compared, so a loss that is not reported is a failed write
    constructor
    · intro himp
      by_contra hcon
      obtain ⟨hf, hr⟩ := not_or.mp hcon
      exact hloss (not_not.mp hf) (himp hr)
    · rintro (hf | hr) hnr
      · refine absurd ⟨?_, ?_, ?_⟩ hbad
        · exact (h.finished (.inr (.inr hdone))).resolve_right hnr
        · exact Bool.eq_false_iff.mpr fun hb => (h.broken hb).elim hf hnr
        · exact (h.status hm).resolve_right hnr
      · exact absurd hr hnr

/-- What `ProcessFile` reports when it returns: the errors are empty only if every byte was
verified, exactly when no write has failed or one of the other branches has logged an
error. -/
theorem silent_loss_iff (hsize : f.bytes.length = P.actualFileSizeBytes) {as : List Action}
    (h : run (step P) as (.init (Disk.ofFile f) chunkSize) = some t) {allVerified : Bool}
    (hret : t.main = .returned allVerified) :
    (t.metricsCollector.errors = [] →
        t.totalBytesVerifiedPayloadByReader = P.actualFileSizeBytes) ↔
      ¬Sometime (step P) WriteFails as (.init (Disk.ofFile f) chunkSize) ∨
        Sometime (step P) Reports as (.init (Disk.ofFile f) chunkSize) := by
  induction as using List.reverseRecOn with
  | nil =>
    cases h
    cases hret
  | append_singleton as a _ =>
    obtain ⟨s, hrun, hs⟩ := Machine.run_concat_eq_some.mp h
    have hj := JoinInv.of_run hrun
    have hinv := ErrorInv.of_run hrun (hj.main_ne_returned hs)
    rw [Machine.sometime_concat hrun, Machine.sometime_concat hrun]
    cases a with
    | writer a =>
      exact absurd ((writerStep_frame hs).main ▸ hret) (hj.main_ne_returned hs allVerified)
    | main a =>
      change mainStep P s a = some t at hs
      rcases (mainStep_enters hs).returned hret with rfl | ⟨now, rfl⟩
      · obtain ⟨status, hm, rfl⟩ := check_iff.mp hs
        have hcheck := hinv.check hj hm fun hf => by
          rw [← hsize]
          exact hinv.verified_ne (.of_run hrun) hf
        simpa [WriteFails, Reports] using hcheck
      · have hlog := (logs_mainStep (by simp) hs).errors_eq_nil_iff hinv.errors
        simp [hlog, Reports]

/-- The server answers the first of two chunks and ends the call; the second write fails. -/
def secondWriteFailsRun : List Action :=
  [.main (.openStream true 0),
    .writer .wake, .writer (.nextChunk 0), .writer (.write true), .writer .insert,
    .main (.read (some ⟨[1], 1⟩) 0), .main .lookup, .main .account, .main .verify,
    .main (.read none 0),
    .writer .wake, .writer (.nextChunk 0), .writer (.write false), .writer .finish,
    .writer .notifyAll, .main .join, .main .leftover, .main (.finish ⟨0, ""⟩ 0), .main .check]

theorem silent_loss_iff_secondWriteFails :
    let P : Params := ⟨2000, 2, fun request => request.dataChunk.length⟩
    let s₀ : ClientState := .init (Disk.ofFile ⟨[1, 2], by decide⟩) ⟨1, by decide, by decide⟩
    ∃ t, run (step P) secondWriteFailsRun s₀ = some t ∧
      ((t.metricsCollector.errors = [] → t.totalBytesVerifiedPayloadByReader = 2) ↔
        ¬Sometime (step P) WriteFails secondWriteFailsRun s₀ ∨
          Sometime (step P) Reports secondWriteFailsRun s₀) := by
  intro P s₀
  have hrun : (run (step P) secondWriteFailsRun s₀).map ClientState.main =
      some (.returned false) := by decide +kernel
  obtain ⟨t, ht, hmain⟩ := Option.map_eq_some_iff.mp hrun
  exact ⟨t, ht, silent_loss_iff rfl ht hmain⟩

/-- The server ends the call with `OK` before it has read a request, and the first write
fails. -/
def earlyEndRun : List Action :=
  [.writer (.write false), .writer .finish, .writer .notifyAll, .main (.read none 0),
    .main .join, .main .leftover, .main (.finish ⟨0, ""⟩ 0), .main .check]

theorem exists_silent_loss (hmax : 0 < P.maxInflightRequests)
    (hcount : 0 < (blocks chunkSize.val f.bytes).length) :
    ∃ as t, run (step P) as (.init (Disk.ofFile f) chunkSize) = some t ∧
      t.main = .returned false ∧ t.totalBytesVerifiedPayloadByReader = 0 ∧
      t.metricsCollector.errors = [] := by
  let s₀ : ClientState := .init (Disk.ofFile f) chunkSize
  let s₁ : ClientState := { s₀ with writer := .wait, main := .read }
  let s₂ : ClientState := { s₁ with writer := .nextChunk }
  have hopen : run (step P) [.main (.openStream true 0)] s₀ = some s₁ := rfl
  have hwake : writerStep P s₁ .wake = some s₂ := wake_iff.mpr ⟨rfl, hmax, rfl⟩
  obtain ⟨hend, -⟩ | ⟨-, -, request, entry, hp, -⟩ :=
    @prepare_ofFile P f chunkSize s₂ (Common.ChunkReader.at_new f chunkSize) hcount.le 0
  · exact absurd hend hcount.ne
  · have hnext : run (step P) ([.writer (.nextChunk 0)] ++ earlyEndRun) s₂ = some _ :=
      Machine.run_trans (congrArg some hp) rfl
    have hwake : run (step P) [.writer .wake] s₁ = some s₂ := Machine.run_of_step hwake
    exact ⟨_, _, Machine.run_trans hopen (Machine.run_trans hwake hnext), rfl, rfl, rfl⟩

/-- With the constants of the program, on a file of the size that it expects. -/
theorem loss_not_reported :
    ∃ as t, run (step (.shipped fun request => request.dataChunk.length)) as
        (.init (Disk.ofFile ⟨List.replicate (10 * 1024 * 1024 * 1024) 0, by
          rw [List.length_replicate]
          decide⟩) chunkSizeBytes) = some t ∧
      t.main = .returned false ∧
      t.totalBytesVerifiedPayloadByReader ≠ 10 * 1024 * 1024 * 1024 ∧
      t.metricsCollector.errors = [] := by
  obtain ⟨as, t, hrun, hmain, htotal, herrors⟩ := @exists_silent_loss
    (.shipped fun request => request.dataChunk.length)
    ⟨List.replicate (10 * 1024 * 1024 * 1024) 0, by rw [List.length_replicate]; decide⟩
    chunkSizeBytes (by decide) (by rw [Blocks.length_blocks, List.length_replicate]; decide)
  exact ⟨as, t, hrun, hmain, by rw [htotal]; decide, herrors⟩

end ReversalBench.Grpc
