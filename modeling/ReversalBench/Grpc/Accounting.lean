import ReversalBench.Grpc.Exit

/-! The payload and the round-trip times that the gRPC client records. Both are recorded for a
response when it has been matched, one right after the other, and nothing can fail in between;
so they describe the same chunks in every state of every run. -/

namespace ReversalBench.Grpc

open Blocks (blocks)
open Machine (run log)

variable {P : Params} {f : File} {chunkSize : ChunkSize} {s t : ClientState}

/-- The id of the chunk whose round-trip time a step records. -/
def measuredId (s : ClientState) : Action → Option ℕ
  | .main .account =>
    match s.main with
    | .account entry _ _ => some entry.clientAssignedId
    | _ => none
  | _ => none

/-! ### What is on the wire -/

/-- The payload is a part of what is sent. -/
def Fits (entry : SentChunkInfo) : Prop :=
  entry.originalPayloadSize ≤ entry.onWireRequestSizeBytes

/-- Where the requests come from: a chunk that is read becomes a request, which is entered in
the map after it was written. -/
structure WriterEnters (P : Params) (s t : ClientState) : Prop where
  write : ∀ {request entry}, t.writer = .write request entry →
    entry.originalPayloadSize = request.dataChunk.length ∧
      entry.onWireRequestSizeBytes = P.byteSizeLong request
  insert : ∀ {entry}, t.writer = .insert entry → ∃ request, s.writer = .write request entry
  map : ∀ {id entry}, t.inflightRequestsMap.lookup id = some entry →
    s.inflightRequestsMap.lookup id = some entry ∨ s.writer = .insert entry

theorem writerStep_enters {a : WriterAction} (hs : writerStep P s a = some t) :
    WriterEnters P s t := by
  cases a with
  | wake =>
    obtain ⟨-, -, rfl⟩ := wake_iff.mp hs
    constructor <;> simp +contextual
  | nextChunk now =>
    obtain ⟨-, rfl⟩ := nextChunk_iff.mp hs
    rcases prepare_cases P s now with ⟨-, -, hp⟩ | ⟨-, -, hp⟩ | ⟨-, request, entry, hp, hreq⟩
    · constructor <;> simp +contextual [hp]
    · constructor <;> simp +contextual [hp, ClientState.logError]
    · obtain ⟨hdata, -, -, hsize, -, hwire⟩ := hreq
      constructor
      · intro request' entry' hw
        rw [hp] at hw
        cases hw
        exact ⟨hsize.trans (congrArg List.length hdata.symm), hwire⟩
      · simp [hp]
      · simp +contextual [hp]
  | throws what =>
    obtain ⟨-, rfl⟩ := writer_throws_iff.mp hs
    constructor <;> simp +contextual [ClientState.writerThrows, ClientState.logError]
  | write ok =>
    obtain ⟨request, entry, hw, rfl⟩ := write_iff.mp hs
    cases ok <;> constructor <;> simp +contextual [hw]
  | insert =>
    obtain ⟨entry, hw, rfl⟩ := insert_iff.mp hs
    constructor
    · simp
    · simp
    · intro id entry' hl
      by_cases hid : id = entry.clientAssignedId
      · subst hid
        rw [AList.lookup_insert] at hl
        cases hl
        exact .inr hw
      · rw [AList.lookup_insert_ne hid] at hl
        exact .inl hl
  | finish =>
    obtain ⟨-, rfl⟩ := writer_finish_iff.mp hs
    cases hb : s.writerStreamBroken <;> constructor <;> simp +contextual
  | writesDone ok =>
    obtain ⟨-, rfl⟩ := writesDone_iff.mp hs
    constructor <;> simp +contextual
  | notifyAll =>
    obtain ⟨-, rfl⟩ := notifyAll_iff.mp hs
    constructor <;> simp +contextual

/-- No request is smaller than its payload, wherever it is. -/
structure WireInv (s : ClientState) : Prop where
  write : ∀ {request entry}, s.writer = .write request entry → Fits entry
  insert : ∀ {entry}, s.writer = .insert entry → Fits entry
  map : ∀ {id entry}, s.inflightRequestsMap.lookup id = some entry → Fits entry
  account : ∀ {entry response now}, s.main = .account entry response now → Fits entry

theorem wireInv_init (disk : Disk) (chunkSize : ChunkSize) : WireInv (.init disk chunkSize) := by
  constructor <;> simp [ClientState.init]

theorem WireInv.of_writerStep
    (hbytes : ∀ request, request.dataChunk.length ≤ P.byteSizeLong request)
    {a : WriterAction} (h : WireInv s) (hs : writerStep P s a = some t) : WireInv t := by
  obtain ⟨hwrite, hinsert, hmap⟩ := writerStep_enters hs
  have hframe := writerStep_frame hs
  constructor
  · intro request entry hw
    obtain ⟨hsize, hwire⟩ := hwrite hw
    rw [Fits, hsize, hwire]
    exact hbytes request
  · intro entry hw
    obtain ⟨request, hold⟩ := hinsert hw
    exact h.write hold
  · intro id entry hl
    exact (hmap hl).elim h.map h.insert
  · intro entry response now hm
    exact h.account (hframe.main.symm.trans hm)

theorem WireInv.of_mainStep {a : MainAction} (h : WireInv s) (hs : mainStep P s a = some t) :
    WireInv t := by
  have hframe := mainStep_frame hs
  have hwriter : t.writer = s.writer ∨ t.writer = .wait := hframe.writer.imp_right And.right
  constructor
  · intro request entry hw
    rcases hwriter with hsame | hwait
    · exact h.write (hsame.symm.trans hw)
    · rw [hwait] at hw
      cases hw
  · intro entry hw
    rcases hwriter with hsame | hwait
    · exact h.insert (hsame.symm.trans hw)
    · rw [hwait] at hw
      cases hw
  · intro id entry hl
    exact h.map (hframe.lookup hl)
  · intro entry response now hm
    obtain rfl := (mainStep_enters hs).account hm
    obtain ⟨response', now', -, rfl⟩ := lookup_iff.mp hs
    rcases lookup_cases s response' now' with ⟨entry', hl, heq⟩ | ⟨-, message, heq⟩
    · rw [heq] at hm
      cases hm
      exact h.map hl
    · rw [heq] at hm
      cases hm

theorem WireInv.of_run (hbytes : ∀ request, request.dataChunk.length ≤ P.byteSizeLong request)
    {disk : Disk} {as : List Action} (h : run (step P) as (.init disk chunkSize) = some t) :
    WireInv t := by
  refine Machine.invariant_run (P := WireInv) ?_ (wireInv_init disk chunkSize) h
  intro s a t hs hstep
  cases a with
  | writer a => exact hs.of_writerStep hbytes hstep
  | main a => exact hs.of_mainStep hstep

/-! ### What is recorded -/

theorem accounts_writerStep {sizes : List ℕ} {a : WriterAction}
    (h : s.metricsCollector.Accounts sizes) (hs : writerStep P s a = some t) :
    t.metricsCollector.Accounts sizes := by
  cases a with
  | wake => obtain ⟨-, -, rfl⟩ := wake_iff.mp hs; exact h
  | nextChunk now =>
    obtain ⟨-, rfl⟩ := nextChunk_iff.mp hs
    rcases prepare_cases P s now with
      ⟨-, -, hp⟩ | ⟨-, -, hp⟩ | ⟨-, request, entry, hp, -⟩ <;> rw [hp]
    · exact h
    · exact h.logError _
    · exact h
  | throws what => obtain ⟨-, rfl⟩ := writer_throws_iff.mp hs; exact h.logError _
  | write ok => obtain ⟨_, _, -, rfl⟩ := write_iff.mp hs; cases ok <;> exact h
  | insert => obtain ⟨_, -, rfl⟩ := insert_iff.mp hs; exact h
  | finish => obtain ⟨-, rfl⟩ := writer_finish_iff.mp hs; exact h
  | writesDone ok => obtain ⟨-, rfl⟩ := writesDone_iff.mp hs; exact h
  | notifyAll => obtain ⟨-, rfl⟩ := notifyAll_iff.mp hs; exact h

/-- Only one step of the reader loop records a chunk. -/
theorem accounts_mainStep {sizes : List ℕ} {a : MainAction} (ha : a ≠ .account)
    (h : s.metricsCollector.Accounts sizes) (hs : mainStep P s a = some t) :
    t.metricsCollector.Accounts sizes := by
  cases a with
  | account => exact absurd rfl ha
  | openStream ok now =>
    obtain ⟨-, rfl⟩ := openStream_iff.mp hs
    cases ok with
    | true => exact h
    | false => exact h.logError _
  | read response now => obtain ⟨-, rfl⟩ := read_iff.mp hs; exact h
  | throws what => obtain ⟨-, rfl⟩ := main_throws_iff.mp hs; exact h.logError _
  | lookup =>
    obtain ⟨response, now, -, rfl⟩ := lookup_iff.mp hs
    rcases lookup_cases s response now with ⟨entry, -, heq⟩ | ⟨-, message, heq⟩ <;> rw [heq]
    · exact h
    · exact h.logError _
  | verify =>
    obtain ⟨entry, response, -, rfl⟩ := verify_iff.mp hs
    rcases verify_cases s entry response with ⟨-, heq⟩ | ⟨-, message, heq⟩ <;> rw [heq]
    · exact h
    · exact h.logError _
  | join => obtain ⟨-, -, rfl⟩ := join_iff.mp hs; exact h
  | leftover =>
    obtain ⟨-, rfl⟩ := leftover_iff.mp hs
    rcases leftover_cases s with ⟨-, heq⟩ | ⟨-, message, heq⟩ <;> rw [heq]
    · exact h
    · exact h.logError _
  | finish status now =>
    obtain ⟨-, rfl⟩ := main_finish_iff.mp hs
    unfold ClientState.finish
    dsimp only
    split
    · exact h.setTotalTransactionTimeMs _
    · exact (h.setTotalTransactionTimeMs _).logError _
  | check =>
    obtain ⟨status, -, rfl⟩ := check_iff.mp hs
    obtain ⟨-, ⟨-, message, heq⟩ | ⟨-, heq⟩⟩ | ⟨-, heq⟩ := check_cases P s status <;> rw [heq]
    · exact h.logError _
    · exact h
    · exact h

/-- The chunks that were measured so far, by their ids, are those that the metrics describe;
each of them was matched. -/
structure AccountInv (f : File) (chunkSize : ChunkSize) (ms ids : List ℕ) (s : ClientState) :
    Prop where
  accounts : s.metricsCollector.Accounts
    (ids.map fun id => Blocks.size chunkSize.val f.bytes.length (id - 1))
  nodup : ids.Nodup
  subset : ids ⊆ ms
  range : ∀ id ∈ ids, 0 < id ∧ id ≤ (blocks chunkSize.val f.bytes).length
  fresh : ∀ {entry response now}, s.main = .account entry response now →
    entry.clientAssignedId ∉ ids

theorem accountInv_init (disk : Disk) (chunkSize : ChunkSize) :
    AccountInv f chunkSize [] [] (.init disk chunkSize) where
  accounts := Common.MetricsAggregator.accounts_new
  nodup := List.nodup_nil
  subset := by simp
  range := by simp
  fresh := by simp [ClientState.init]

variable {rs : List ChunkResponse} {ms cs ids : List ℕ}

theorem AccountInv.of_lookup (h : AccountInv f chunkSize ms ids s)
    (hr : ReaderInv P f chunkSize rs ms cs s) (hw : WriterInv f chunkSize s)
    (hs : mainStep P s .lookup = some t) :
    AccountInv f chunkSize (ms ++ (matchedId s (.main .lookup)).toList) ids t := by
  refine ⟨accounts_mainStep (by simp) h.accounts hs, h.nodup,
    fun id hid => List.mem_append_left _ (h.subset hid), h.range,
    fun {entry response now} hm hid => ?_⟩
  -- the entry was still in the map, so its id had not been matched
  obtain ⟨response', now', hold, rfl⟩ := lookup_iff.mp hs
  rcases lookup_cases s response' now' with ⟨entry', hl, heq⟩ | ⟨-, message, heq⟩
  · rw [heq] at hm
    cases hm
    obtain ⟨-, -, hnone⟩ := hr.matched _ (h.subset hid)
    rw [(hw.map hl).1.id_eq, hl] at hnone
    cases hnone
  · rw [heq] at hm
    cases hm

theorem AccountInv.of_account (h : AccountInv f chunkSize ms ids s)
    (hr : ReaderInv P f chunkSize rs ms cs s) (hwire : WireInv s)
    (hs : mainStep P s .account = some t) :
    AccountInv f chunkSize ms (ids ++ (measuredId s (.main .account)).toList) t := by
  obtain ⟨entry, response, now, hm, rfl⟩ := account_iff.mp hs
  obtain ⟨-, hentry, hmatched, -⟩ := by simpa only [AtReader, hm] using hr.pc
  have hobs : measuredId s (.main .account) = some entry.clientAssignedId := by
    simp [measuredId, hm]
  have hsize : entry.originalPayloadSize =
      Blocks.size chunkSize.val f.bytes.length (entry.clientAssignedId - 1) := by
    obtain ⟨hlt, hget⟩ := List.getElem?_eq_some_iff.mp hentry.data
    rw [hentry.size, ← hget, Blocks.length_getElem_blocks, hentry.id_eq]
  rw [hobs, Option.toList_some]
  refine ⟨?_, ?_, ?_, fun id hid => ?_, by simp [ClientState.account]⟩
  · rw [List.map_append, List.map_singleton, ← hsize]
    exact h.accounts.record (hwire.account hm) _
  · exact List.concat_eq_append ▸ h.nodup.concat (h.fresh hm)
  · exact List.append_subset.mpr ⟨h.subset, by simpa using hmatched⟩
  · rcases List.mem_append.mp hid with hid | hid
    · exact h.range id hid
    · rw [List.mem_singleton.mp hid, hentry.id_eq]
      exact ⟨hentry.pos, hentry.le⟩

theorem measuredId_eq_none {a : MainAction} (s : ClientState) (ha : a ≠ .account) :
    measuredId s (.main a) = none := by
  cases a <;> first | rfl | exact absurd rfl ha

theorem AccountInv.of_mainStep {a : MainAction} (h : AccountInv f chunkSize ms ids s)
    (hr : ReaderInv P f chunkSize rs ms cs s) (hw : WriterInv f chunkSize s) (hwire : WireInv s)
    (hs : mainStep P s a = some t) :
    AccountInv f chunkSize (ms ++ (matchedId s (.main a)).toList)
      (ids ++ (measuredId s (.main a)).toList) t := by
  by_cases hl : a = .lookup
  · subst hl
    simpa [measuredId] using h.of_lookup hr hw hs
  · by_cases ha : a = .account
    · subst ha
      simpa [matchedId] using h.of_account hr hwire hs
    · rw [matchedId_eq_none s hl, measuredId_eq_none s ha]
      simp only [Option.toList_none, List.append_nil]
      exact ⟨accounts_mainStep ha h.accounts hs, h.nodup, h.subset, h.range,
        fun hm => absurd ((mainStep_enters hs).account hm) hl⟩

theorem AccountInv.of_step {a : Action} (h : AccountInv f chunkSize ms ids s)
    (hr : ReaderInv P f chunkSize rs ms cs s) (hw : WriterInv f chunkSize s) (hwire : WireInv s)
    (hs : step P s a = some t) :
    AccountInv f chunkSize (ms ++ (matchedId s a).toList) (ids ++ (measuredId s a).toList) t := by
  cases a with
  | main a => exact h.of_mainStep hr hw hwire hs
  | writer a =>
    simp only [matchedId, measuredId, Option.toList_none, List.append_nil]
    refine ⟨accounts_writerStep h.accounts hs, h.nodup, h.subset, h.range, fun hm => ?_⟩
    exact h.fresh ((writerStep_frame hs).main.symm.trans hm)

/-- In every state of every run the metrics describe the chunks that were measured. -/
theorem AccountInv.of_run (hbytes : ∀ request, request.dataChunk.length ≤ P.byteSizeLong request)
    {as : List Action} (h : run (step P) as (.init (Disk.ofFile f) chunkSize) = some t) :
    AccountInv f chunkSize (log (step P) matchedId as (.init (Disk.ofFile f) chunkSize))
      (log (step P) measuredId as (.init (Disk.ofFile f) chunkSize)) t := by
  induction as using List.reverseRecOn generalizing t with
  | nil =>
    cases h
    exact accountInv_init _ chunkSize
  | append_singleton as a ih =>
    obtain ⟨s, hrun, hs⟩ := Machine.run_concat_eq_some.mp h
    simp only [Machine.log_concat _ _ hrun]
    exact (ih hrun).of_step (.of_run hrun) (.of_run hrun) (.of_run hbytes hrun) hs

namespace Program

/-- The ids of the chunks whose round-trip times were recorded in a run. -/
def measuredIds (P : Params) (as : List ProgramAction) (c : Program) : List ℕ :=
  log (Grpc.step P) measuredId (log (step P) clientAction as c) c.client

/-- The threads run on their own within a run of the program; when `main` catches an exception
only a message is added. -/
theorem run_threads {as : List ProgramAction} {c u : Program}
    (h : run (step P) as c = some u) :
    ∃ client, run (Grpc.step P) (log (step P) clientAction as c) c.client = some client ∧
      (u.client = client ∨ ∃ message, u.client = client.logError message) ∧
      (u.pc = .processing → u.client = client) := by
  induction as using List.reverseRecOn generalizing u with
  | nil =>
    cases h
    exact ⟨c.client, rfl, .inl rfl, fun _ => rfl⟩
  | append_singleton as a ih =>
    obtain ⟨v, hrun, hstep⟩ := Machine.run_concat_eq_some.mp h
    obtain ⟨client, hclient, -, hsame⟩ := ih hrun
    rw [Machine.log_concat _ _ hrun]
    rcases step_cases hstep with
      ⟨b, next, rfl, hnext, hpc, rfl⟩ | ⟨what, rfl, -, hpc, rfl⟩ | ⟨rfl, -, hpc, rfl⟩
    · rw [hsame hpc] at hnext
      exact ⟨next, Machine.run_concat_eq_some.mpr ⟨client, hclient, hnext⟩, .inl rfl,
        fun _ => rfl⟩
    · have hlogged : ∃ message, (v.client.logError ("gRPC Client (main): Exception caught: " ++
          what)) = client.logError message := ⟨_, by rw [hsame hpc]⟩
      exact ⟨client, by simpa [clientAction] using hclient, .inr hlogged, fun hu => by cases hu⟩
    · exact ⟨client, by simpa [clientAction] using hclient, .inl (hsame hpc), fun hu => by cases hu⟩

/-- The metrics that are printed and saved describe the chunks that were measured, each of
which was measured once. -/
theorem accounts (hbytes : ∀ request, request.dataChunk.length ≤ P.byteSizeLong request)
    {prepared : Bool} {as : List ProgramAction} {u : Program}
    (h : run (step P) as (main prepared (Disk.ofFile f) chunkSize) = some u) :
    let ids := measuredIds P as (main prepared (Disk.ofFile f) chunkSize)
    ids.Nodup ∧ (∀ id ∈ ids, 0 < id ∧ id ≤ (blocks chunkSize.val f.bytes).length) ∧
      u.client.metricsCollector.Accounts
        (ids.map fun id => Blocks.size chunkSize.val f.bytes.length (id - 1)) := by
  obtain ⟨client, hclient, hlast, -⟩ := run_threads h
  have hinv := AccountInv.of_run hbytes hclient
  refine ⟨hinv.nodup, hinv.range, ?_⟩
  rcases hlast with hsame | ⟨message, hlogged⟩
  · rw [hsame]
    exact hinv.accounts
  · rw [hlogged]
    exact hinv.accounts.logError message

end Program

end ReversalBench.Grpc
