import ReversalBench.Grpc.Errors

/-! The exit status of the gRPC client (`grpc_client.cpp`, `main`). `ProcessFile` returns
nothing, and `main` catches what it throws and returns 0 in any case; only a test file that
cannot be generated leads to status 1. So the status is right exactly where nothing fails,
and then every chunk was answered: a chunk that is entered in the map leaves it only when it
is matched, and the leftover check finds the map empty. -/

namespace ReversalBench.Grpc

open Blocks (blocks)
open Machine (run log Sometime)

variable {P : Params} {f : File} {chunkSize : ChunkSize} {s t : ClientState}

/-- A step in which something fails: an operation of the stream, a comparison, an exception,
a request that was not answered. -/
def Fails (s : ClientState) (a : Action) : Prop :=
  WriteFails s a ∨ a = .writer (.writesDone false) ∨ (Reports s a ∧ a ≠ .main .lookup)

theorem fails_writer {a : WriterAction} (h : Reports s (.writer a)) : Fails s (.writer a) :=
  .inr (.inr ⟨h, by simp⟩)

theorem fails_main {a : MainAction} (ha : a ≠ .lookup) (h : Reports s (.main a)) :
    Fails s (.main a) :=
  .inr (.inr ⟨h, by simpa using ha⟩)

/-! ### Nothing is lost where nothing fails -/

/-- The id that was matched and is not compared yet. -/
def MainPc.Holds : MainPc → ℕ → Prop
  | .account entry _ _, id | .verify entry _, id => entry.clientAssignedId = id
  | _, _ => False

/-- The leftover check has been made. -/
def MainPc.AfterLeftover (pc : MainPc) : Prop :=
  pc = .finish ∨ (∃ status, pc = .check status) ∨ ∃ allVerified, pc = .returned allVerified

/-- Every id that was entered in the map is there or was matched, and every id that was matched
was found correct or is about to be compared. -/
structure Kept (ms cs : List ℕ) (s : ClientState) : Prop where
  inserted : ∀ id, 0 < id → id ≤ s.inserted →
    id ∈ ms ∨ s.inflightRequestsMap.lookup id ≠ none
  correct : ∀ id ∈ ms, id ∈ cs ∨ s.main.Holds id
  unbroken : s.writerStreamBroken = false
  started : s.main ≠ .start → s.writer ≠ .notStarted
  empty : s.main.AfterLeftover → s.inflightRequestsMap.keys = []

theorem kept_init (disk : Disk) (chunkSize : ChunkSize) : Kept [] [] (.init disk chunkSize) where
  inserted id hpos hle := absurd hle (Nat.not_le.mpr hpos)
  correct := by simp
  unbroken := rfl
  started h := absurd rfl h
  empty := by simp [MainPc.AfterLeftover, ClientState.init]

variable {ms cs : List ℕ}

/-- A chunk that the writer counts as entered is in the map. -/
theorem WriterInv.lookup_inserted {a : WriterAction} (h : WriterInv f chunkSize s)
    (hno : ¬Fails s (.writer a)) (hs : writerStep P s a = some t) {id : ℕ}
    (hgt : s.inserted < id) (hle : id ≤ t.inserted) :
    t.inflightRequestsMap.lookup id ≠ none := by
  cases a with
  | wake =>
    obtain ⟨hw, -, rfl⟩ := wake_iff.mp hs
    simp only [ClientState.inserted, hw] at hgt hle
    omega
  | nextChunk now =>
    obtain ⟨hw, rfl⟩ := nextChunk_iff.mp hs
    rcases prepare_cases P s now with ⟨-, -, hp⟩ | ⟨-, -, hp⟩ | ⟨-, request, entry, hp, -⟩ <;>
      simp only [hp, ClientState.inserted, ClientState.logError, hw] at hgt hle <;> omega
  | throws what => exact (hno (fails_writer trivial)).elim
  | write ok =>
    obtain ⟨request, entry, hw, rfl⟩ := write_iff.mp hs
    cases ok <;> simp [ClientState.inserted, hw] at hgt hle <;> omega
  | insert =>
    obtain ⟨entry, hw, rfl⟩ := insert_iff.mp hs
    obtain ⟨-, hsent, -, hentry⟩ := by simpa only [AtWriter, hw] using h.pc
    simp only [ClientState.inserted, hw] at hgt hle
    have hid : id = entry.clientAssignedId := by
      have := hentry.id_eq
      omega
    simp [hid]
  | finish =>
    obtain ⟨hw, rfl⟩ := writer_finish_iff.mp hs
    cases hb : s.writerStreamBroken <;> simp [ClientState.inserted, hw, hb] at hgt hle <;> omega
  | writesDone ok =>
    obtain ⟨hw, rfl⟩ := writesDone_iff.mp hs
    simp only [ClientState.inserted, hw] at hgt hle
    omega
  | notifyAll =>
    obtain ⟨hw, rfl⟩ := notifyAll_iff.mp hs
    simp only [ClientState.inserted, hw] at hgt hle
    omega

theorem Kept.of_writerStep {a : WriterAction} (h : Kept ms cs s) (hw : WriterInv f chunkSize s)
    (hj : JoinInv s) (hno : ¬Fails s (.writer a)) (hs : writerStep P s a = some t) :
    Kept ms cs t := by
  have hframe := writerStep_frame hs
  have hbefore : ¬s.main.AfterLeftover := by
    rintro (hm | ⟨status, hm⟩ | ⟨allVerified, hm⟩)
    · exact hframe.not_done (hj.joined (.inr (.inl hm)))
    · exact hframe.not_done (hj.joined (.inr (.inr ⟨status, hm⟩)))
    · rcases hj.returned hm with hdone | hnot
      · exact hframe.not_done hdone
      · exact hframe.started hnot
  constructor
  · intro id hpos hle
    rcases Nat.lt_or_ge s.inserted id with hgt | hge
    · exact .inr (hw.lookup_inserted hno hs hgt hle)
    · rw [(hw.map_writerStep hs).2 id hge]
      exact h.inserted id hpos hge
  · rw [hframe.main]
    exact h.correct
  · rw [Bool.eq_false_iff, ne_eq, (writerStep_effect hs).broken, h.unbroken]
    rintro (hb | hf | hr)
    · cases hb
    · exact hno (.inl hf)
    · exact hno (fails_writer hr)
  · exact fun _ => hframe.running
  · rw [hframe.main]
    exact fun hm => absurd hm hbefore

/-- A step that matches nothing and verifies nothing. -/
theorem Kept.of_frame (h : Kept ms cs s) (hinserted : t.inserted = s.inserted)
    (hmap : t.inflightRequestsMap = s.inflightRequestsMap)
    (hbroken : t.writerStreamBroken = s.writerStreamBroken)
    (hholds : ∀ id, s.main.Holds id → t.main.Holds id) (hstarted : t.writer ≠ .notStarted)
    (hempty : t.main.AfterLeftover → s.inflightRequestsMap.keys = []) : Kept ms cs t := by
  constructor
  · rw [hinserted, hmap]
    exact h.inserted
  · exact fun id hid => (h.correct id hid).imp_right (hholds id)
  · exact hbroken.trans h.unbroken
  · exact fun _ => hstarted
  · rw [hmap]
    exact hempty

theorem Kept.of_lookup (h : Kept ms cs s) (hw : WriterInv f chunkSize s)
    (hs : mainStep P s .lookup = some t) :
    Kept (ms ++ (matchedId s (.main .lookup)).toList) cs t := by
  have hinserted := hw.inserted_mainStep hs
  obtain ⟨response, now, hm, rfl⟩ := lookup_iff.mp hs
  have hstarted := h.started (by simp [hm])
  have hcorrect : ∀ id ∈ ms, id ∈ cs := by
    intro id hid
    simpa [hm, MainPc.Holds] using h.correct id hid
  rcases lookup_cases s response now with ⟨entry, hl, heq⟩ | ⟨hl, message, heq⟩
  · have hobs : matchedId s (.main .lookup) = some entry.clientAssignedId := by
      simp [matchedId, hm, hl]
    have hid := (hw.map hl).1.id_eq
    rw [hobs, heq, Option.toList_some]
    rw [heq] at hinserted
    refine ⟨fun id hpos hle => ?_, fun id hmem => ?_, h.unbroken, fun _ => hstarted, ?_⟩
    · rw [hinserted] at hle
      by_cases hsame : id = toSizeT response.originalClientChunkId
      · rw [hsame, ← hid]
        exact .inl (List.mem_append_right _ (List.mem_singleton_self _))
      · rw [AList.lookup_erase_ne hsame]
        exact (h.inserted id hpos hle).imp_left (List.mem_append_left _)
    · rcases List.mem_append.mp hmem with hmem | hmem
      · exact .inl (hcorrect id hmem)
      · exact .inr (List.mem_singleton.mp hmem).symm
    · simp [MainPc.AfterLeftover]
  · have hobs : matchedId s (.main .lookup) = none := by simp [matchedId, hm, hl]
    rw [hobs, heq, Option.toList_none, List.append_nil]
    exact ⟨h.inserted, fun id hmem => .inl (hcorrect id hmem), h.unbroken, fun _ => hstarted,
      by simp [MainPc.AfterLeftover]⟩

theorem Kept.of_verify (h : Kept ms cs s) (hno : ¬Fails s (.main .verify))
    (hs : mainStep P s .verify = some t) :
    Kept ms (cs ++ (correctId s (.main .verify)).toList) t := by
  obtain ⟨entry, response, hm, rfl⟩ := verify_iff.mp hs
  have hstarted := h.started (by simp [hm])
  rcases verify_cases s entry response with ⟨hdata, heq⟩ | ⟨hdata, -⟩
  · have hobs : correctId s (.main .verify) = some entry.clientAssignedId := by
      simp [correctId, hm, hdata]
    rw [hobs, heq, Option.toList_some]
    refine ⟨h.inserted, fun id hmem => .inl ?_, h.unbroken, fun _ => hstarted, ?_⟩
    · rcases h.correct id hmem with hid | hid
      · exact List.mem_append_left _ hid
      · rw [hm] at hid
        exact List.mem_append_right _ (List.mem_singleton.mpr hid.symm)
    · simp [MainPc.AfterLeftover]
  · refine absurd (fails_main (by simp) ?_) hno
    simpa only [Reports, hm] using hdata

/-- The other steps of the reader. -/
theorem Kept.of_other {a : MainAction} (h : Kept ms cs s) (hw : WriterInv f chunkSize s)
    (hno : ¬Fails s (.main a)) (hl : a ≠ .lookup) (hv : a ≠ .verify)
    (hs : mainStep P s a = some t) : Kept ms cs t := by
  have hinserted := hw.inserted_mainStep hs
  have hkeep : s.main ≠ .start → t.writer ≠ .notStarted := by
    intro hm
    rw [(mainStep_frame hs).writer.resolve_right fun hstart => hm hstart.1]
    exact h.started hm
  cases a with
  | lookup => exact absurd rfl hl
  | verify => exact absurd rfl hv
  | openStream ok now =>
    obtain ⟨hm, rfl⟩ := openStream_iff.mp hs
    cases ok with
    | true =>
      refine h.of_frame hinserted rfl rfl ?_ ?_ ?_
      · simp [hm, MainPc.Holds]
      · simp
      · simp [MainPc.AfterLeftover]
    | false => exact (hno (fails_main (by simp) rfl)).elim
  | read response now =>
    obtain ⟨hm, rfl⟩ := read_iff.mp hs
    refine h.of_frame hinserted rfl rfl ?_ (hkeep (by simp [hm])) ?_
    · simp [hm, MainPc.Holds]
    · cases response <;> simp [MainPc.AfterLeftover]
  | throws what => exact (hno (fails_main (by simp) trivial)).elim
  | account =>
    obtain ⟨entry, response, now, hm, rfl⟩ := account_iff.mp hs
    refine h.of_frame hinserted rfl rfl ?_ (hkeep (by simp [hm])) ?_
    · simp [hm, MainPc.Holds, ClientState.account]
    · simp [MainPc.AfterLeftover, ClientState.account]
  | join =>
    obtain ⟨hm, -, rfl⟩ := join_iff.mp hs
    refine h.of_frame hinserted rfl rfl ?_ (hkeep (by simp [hm])) ?_
    · simp [hm, MainPc.Holds]
    · simp [MainPc.AfterLeftover]
  | leftover =>
    obtain ⟨hm, rfl⟩ := leftover_iff.mp hs
    rcases leftover_cases s with ⟨hnil, heq⟩ | ⟨hne, -⟩
    · have hkeep := hkeep (by simp [hm])
      rw [heq] at hinserted hkeep ⊢
      refine h.of_frame hinserted rfl rfl ?_ hkeep fun _ => hnil
      simp [hm, MainPc.Holds]
    · exact (hno (fails_main (by simp) hne)).elim
  | finish status now =>
    obtain ⟨hm, rfl⟩ := main_finish_iff.mp hs
    have hkeep := hkeep (by simp [hm])
    obtain ⟨m, -, ⟨-, heq⟩ | ⟨-, message, heq⟩⟩ := finish_cases s status now <;>
      rw [heq] at hinserted hkeep ⊢ <;>
      exact h.of_frame hinserted rfl rfl (by simp [hm, MainPc.Holds]) hkeep
        fun _ => h.empty (.inl hm)
  | check =>
    obtain ⟨status, hm, rfl⟩ := check_iff.mp hs
    have hkeep := hkeep (by simp [hm])
    obtain ⟨-, ⟨-, message, heq⟩ | ⟨-, heq⟩⟩ | ⟨-, heq⟩ := check_cases P s status <;>
      rw [heq] at hinserted hkeep ⊢ <;>
      exact h.of_frame hinserted rfl rfl (by simp [hm, MainPc.Holds]) hkeep
        fun _ => h.empty (.inr (.inl ⟨status, hm⟩))

theorem Kept.of_step {a : Action} (h : Kept ms cs s) (hw : WriterInv f chunkSize s)
    (hj : JoinInv s) (hno : ¬Fails s a) (hs : step P s a = some t) :
    Kept (ms ++ (matchedId s a).toList) (cs ++ (correctId s a).toList) t := by
  cases a with
  | writer a => simpa [matchedId, correctId] using h.of_writerStep hw hj hno hs
  | main a =>
    by_cases hl : a = .lookup
    · subst hl
      simpa [correctId] using h.of_lookup (P := P) hw hs
    · by_cases hv : a = .verify
      · subst hv
        simpa [matchedId] using h.of_verify (P := P) hno hs
      · rw [matchedId_eq_none s hl, correctId_eq_none s hv]
        simpa using h.of_other hw hno hl hv hs

theorem Kept.of_run {as : List Action}
    (h : run (step P) as (.init (Disk.ofFile f) chunkSize) = some t)
    (hno : ¬Sometime (step P) Fails as (.init (Disk.ofFile f) chunkSize)) :
    Kept (log (step P) matchedId as (.init (Disk.ofFile f) chunkSize))
      (log (step P) correctId as (.init (Disk.ofFile f) chunkSize)) t := by
  induction as using List.reverseRecOn generalizing t with
  | nil =>
    cases h
    exact kept_init (Disk.ofFile f) chunkSize
  | append_singleton as a ih =>
    obtain ⟨s, hrun, hs⟩ := Machine.run_concat_eq_some.mp h
    rw [Machine.sometime_concat hrun, not_or] at hno
    simp only [Machine.log_concat _ _ hrun]
    exact (ih hrun hno.1).of_step (.of_run hrun) (.of_run hrun) hno.2 hs

/-! ### What was verified -/

/-- Every chunk was sent, and answered with its id and its bytes reversed, and the verified
bytes are those of the file. -/
structure AllVerified (f : File) (chunkSize : ChunkSize) (responses : List ChunkResponse)
    (s : ClientState) : Prop where
  sent : s.totalChunksActuallySentByWriter = (blocks chunkSize.val f.bytes).length
  answered : ∀ k (hk : k < (blocks chunkSize.val f.bytes).length), ∃ response ∈ responses,
    response.originalClientChunkId = Int64.ofNat (k + 1) ∧
      response.reversedChunkData = (blocks chunkSize.val f.bytes)[k].reverse
  total : s.totalBytesVerifiedPayloadByReader = f.bytes.length

/-- When `ProcessFile` returns and nothing has failed, every id was found correct. -/
theorem Kept.mem_correct (h : Kept ms cs s) (hw : WriterInv f chunkSize s)
    (hdone : s.writer = .done) {allVerified : Bool} (hm : s.main = .returned allVerified) {k : ℕ}
    (hk : k < (blocks chunkSize.val f.bytes).length) : k + 1 ∈ cs := by
  have hpc := hw.pc
  simp only [AtWriter, hdone] at hpc
  have hinserted : s.inserted = (blocks chunkSize.val f.bytes).length := by
    simp only [ClientState.inserted, hdone]
    exact hpc.2 h.unbroken
  have hnone : s.inflightRequestsMap.lookup (k + 1) = none := by
    rw [AList.lookup_eq_none, AList.mem_keys, h.empty (.inr (.inr ⟨allVerified, hm⟩))]
    exact List.not_mem_nil
  have hmatched := (h.inserted (k + 1) (Nat.succ_pos k) (by omega)).resolve_right
    (not_not_intro hnone)
  simpa [hm, MainPc.Holds] using h.correct (k + 1) hmatched

/-- Ids that are all different and are those of all chunks have the size of the file. -/
theorem sum_size_ids (hnodup : cs.Nodup)
    (hmem : ∀ id, id ∈ cs ↔ 0 < id ∧ id ≤ (blocks chunkSize.val f.bytes).length) :
    (cs.map fun id => Blocks.size chunkSize.val f.bytes.length (id - 1)).sum = f.bytes.length := by
  have hperm : (cs.map fun id => id - 1).Perm
      (List.range (Blocks.count chunkSize.val f.bytes.length)) := by
    rw [List.perm_ext_iff_of_nodup ?_ List.nodup_range]
    · intro i
      rw [List.mem_range, List.mem_map, ← Blocks.length_blocks]
      constructor
      · rintro ⟨id, hid, rfl⟩
        have := (hmem id).mp hid
        omega
      · intro hi
        exact ⟨i + 1, (hmem (i + 1)).mpr ⟨Nat.succ_pos i, hi⟩, rfl⟩
    · apply hnodup.map_on
      intro i hi j hj heq
      have := (hmem i).mp hi
      have := (hmem j).mp hj
      omega
  have hsum := (hperm.map (Blocks.size chunkSize.val f.bytes.length)).sum_eq
  rw [List.map_map, Blocks.sum_size chunkSize.pos] at hsum
  exact hsum

/-- A run of `ProcessFile` in which nothing fails verifies every chunk. -/
theorem allVerified_of_run {as : List Action}
    (h : run (step P) as (.init (Disk.ofFile f) chunkSize) = some t)
    (hno : ¬Sometime (step P) Fails as (.init (Disk.ofFile f) chunkSize)) {allVerified : Bool}
    (hm : t.main = .returned allVerified) :
    AllVerified f chunkSize (log (step P) received as (.init (Disk.ofFile f) chunkSize)) t := by
  have hw := WriterInv.of_run h
  have hr := ReaderInv.of_run h
  have hkept := Kept.of_run h hno
  have hdone : t.writer = .done :=
    ((JoinInv.of_run h).returned hm).resolve_right (hkept.started (by simp [hm]))
  have hcorrect : ∀ {k}, k < (blocks chunkSize.val f.bytes).length → _ :=
    fun hk => hkept.mem_correct hw hdone hm hk
  have hpc := hw.pc
  simp only [AtWriter, hdone] at hpc
  refine ⟨hpc.2 hkept.unbroken, fun k hk => ?_, hr.total.trans (sum_size_ids hr.correct_nodup ?_)⟩
  · obtain ⟨response, hmem, hid, chunk, hchunk, hdata⟩ := hr.correct _ (hcorrect hk)
    refine ⟨response, hmem, ?_, ?_⟩
    · rw [← ofNat_toSizeT response.originalClientChunkId, hid]
    · obtain ⟨_, hget⟩ := List.getElem?_eq_some_iff.mp hchunk
      rw [hdata]
      exact congrArg List.reverse hget.symm
  · intro id
    constructor
    · intro hid
      obtain ⟨hpos, -⟩ := hr.matched id (hr.correct_subset hid)
      obtain ⟨response, -, hanswer⟩ := hr.correct id hid
      have := hanswer.lt
      rw [Blocks.length_blocks]
      omega
    · rintro ⟨hpos, hle⟩
      have hmem := @hcorrect (id - 1) (by omega)
      rwa [Nat.sub_add_cancel hpos] at hmem

/-! ### The program -/

/-- Where `main` is. -/
inductive ProgramPc where
  | processing
  | exited (status : ℕ)
  deriving DecidableEq

structure Program where
  client : ClientState
  pc : ProgramPc

/-- The threads of `ProcessFile` take a step, it throws, or it has returned and the metrics are
saved. -/
inductive ProgramAction where
  | client (a : Action)
  | throws (what : String)
  | returns

namespace Program

/-- `main` up to the call of `ProcessFile`: the test file has the right size, or it can be
generated. -/
def main (prepared : Bool) (disk : Disk) (chunkSize : ChunkSize) : Program where
  client := .init disk chunkSize
  pc := if prepared then .processing else .exited 1

/-- `ProcessFile` throws before it has started the writer thread, when the file cannot be
opened for example, or after it has joined it. An exception while the thread runs would
terminate the process; those of the two loops are caught there. -/
def CanThrow (c : Program) : Prop := c.client.main = .start ∨ c.client.main.AfterJoin

instance (pc : MainPc) : Decidable pc.AfterJoin :=
  match pc with
  | .leftover => isTrue (.inl rfl)
  | .finish => isTrue (.inr (.inl rfl))
  | .check status => isTrue (.inr (.inr ⟨status, rfl⟩))
  | .start | .read | .lookup _ _ | .account _ _ _ | .verify _ _ | .join | .returned _ =>
    isFalse (by simp [MainPc.AfterJoin])

instance (c : Program) : Decidable c.CanThrow := inferInstanceAs (Decidable (_ ∨ _))

/-- One step of the program. Both `catch` clauses go on to the end of `main`. -/
def step (P : Params) (c : Program) (a : ProgramAction) : Option Program :=
  match c.pc with
  | .exited _ => none
  | .processing =>
    match a with
    | .client a => (Grpc.step P c.client a).map fun client => { c with client }
    | .throws what =>
      if c.CanThrow then
        some ⟨c.client.logError ("gRPC Client (main): Exception caught: " ++ what), .exited 0⟩
      else none
    | .returns =>
      match c.client.main with
      | .returned _ => some { c with pc := .exited 0 }
      | _ => none

/-- Something fails. -/
def Fails (c : Program) : ProgramAction → Prop
  | .client a => Grpc.Fails c.client a
  | .throws _ => True
  | .returns => False

/-- The step of `ProcessFile` in a step of the program. -/
def clientAction (_ : Program) : ProgramAction → Option Action
  | .client a => some a
  | _ => none

/-- The responses that were read in a run. -/
def responses (P : Params) (as : List ProgramAction) (c : Program) : List ChunkResponse :=
  log (Grpc.step P) received (log (step P) clientAction as c) c.client

/-! ### Whole runs -/

variable {as : List ProgramAction} {c u : Program} {status : ℕ} {disk : Disk}

/-- What one step of the program can be. -/
theorem step_cases {a : ProgramAction} (h : step P c a = some u) :
    (∃ b client, a = .client b ∧ Grpc.step P c.client b = some client ∧
      c.pc = .processing ∧ u = { c with client }) ∨
    (∃ what, a = .throws what ∧ c.CanThrow ∧ c.pc = .processing ∧
      u = ⟨c.client.logError ("gRPC Client (main): Exception caught: " ++ what), .exited 0⟩) ∨
    (a = .returns ∧ (∃ allVerified, c.client.main = .returned allVerified) ∧
      c.pc = .processing ∧ u = { c with pc := .exited 0 }) := by
  cases hpc : c.pc with
  | exited status => simp [step, hpc] at h
  | processing =>
    cases a with
    | client b =>
      simp only [step, hpc, Option.map_eq_some_iff] at h
      obtain ⟨client, hnext, rfl⟩ := h
      exact .inl ⟨b, client, rfl, hnext, rfl, rfl⟩
    | throws what =>
      simp only [step, hpc] at h
      split at h <;> cases h
      exact .inr (.inl ⟨what, rfl, ‹_›, rfl, rfl⟩)
    | returns =>
      simp only [step, hpc] at h
      split at h <;> cases h
      exact .inr (.inr ⟨rfl, ⟨_, ‹_›⟩, rfl, rfl⟩)

/-- The threads run on their own within a run of the program, up to what `main` logs. -/
theorem run_client (h : run (step P) as c = some u) (hno : ¬Sometime (step P) Fails as c) :
    run (Grpc.step P) (log (step P) clientAction as c) c.client = some u.client ∧
      ¬Sometime (Grpc.step P) Grpc.Fails (log (step P) clientAction as c) c.client := by
  induction as using List.reverseRecOn generalizing u with
  | nil =>
    cases h
    exact ⟨rfl, id⟩
  | append_singleton as a ih =>
    obtain ⟨v, hrun, hstep⟩ := Machine.run_concat_eq_some.mp h
    rw [Machine.sometime_concat hrun, not_or] at hno
    obtain ⟨hclient, hfails⟩ := ih hrun hno.1
    rw [Machine.log_concat _ _ hrun]
    rcases step_cases hstep with
      ⟨b, client, rfl, hnext, -, rfl⟩ | ⟨what, rfl, -⟩ | ⟨rfl, -, -, rfl⟩
    · refine ⟨Machine.run_concat_eq_some.mpr ⟨v.client, hclient, hnext⟩, ?_⟩
      rw [clientAction, Option.toList_some, Machine.sometime_concat hclient, not_or]
      exact ⟨hfails, hno.2⟩
    · exact absurd trivial hno.2
    · simpa [clientAction] using ⟨hclient, hfails⟩

/-- A program that has ended without a failure has returned from `ProcessFile`. -/
theorem returned_of_exited (h : run (step P) as (main true disk chunkSize) = some u)
    (hno : ¬Sometime (step P) Fails as (main true disk chunkSize))
    (hpc : u.pc = .exited status) : ∃ allVerified, u.client.main = .returned allVerified := by
  induction as using List.reverseRecOn with
  | nil =>
    cases h
    cases hpc
  | append_singleton as a =>
    obtain ⟨c, hrun, hstep⟩ := Machine.run_concat_eq_some.mp h
    rw [Machine.sometime_concat hrun, not_or] at hno
    rcases step_cases hstep with
      ⟨b, client, -, -, hc, rfl⟩ | ⟨what, rfl, -⟩ | ⟨-, hreturned, -, rfl⟩
    · rw [hc] at hpc
      cases hpc
    · exact absurd trivial hno.2
    · exact hreturned

/-- Without a failure everything was verified when the program ends. -/
theorem allVerified (h : run (step P) as (main true (Disk.ofFile f) chunkSize) = some u)
    (hno : ¬Sometime (step P) Fails as (main true (Disk.ofFile f) chunkSize))
    (hpc : u.pc = .exited status) :
    AllVerified f chunkSize (responses P as (main true (Disk.ofFile f) chunkSize)) u.client := by
  obtain ⟨allVerified, hm⟩ := returned_of_exited h hno hpc
  obtain ⟨hclient, hfails⟩ := run_client h hno
  exact allVerified_of_run hclient hfails hm

end Program

end ReversalBench.Grpc
