import ReversalBench.Grpc.Matching

/-! The window of the gRPC client, on any disk and whatever the peer and the stream do. The
writer looks for room in the map and gives the mutex back before it writes a request and
enters it. It is the only thread that enters requests, so the room that it saw is still
there; and a request that was not answered is in the map or about to be entered. -/

namespace ReversalBench.Grpc

open Machine (run log run_induction log_concat)

variable {P : Params} {s t : ClientState} {ws us us' : List ℕ} {rs : List ChunkResponse}

/-- The id of the request that a step writes to the stream. -/
def writtenId (s : ClientState) : Action → Option ℕ
  | .writer (.write true) =>
    match s.writer with
    | .write _ logEntry => some logEntry.clientAssignedId
    | _ => none
  | _ => none

/-- The requests among `ws` to which none of the responses `rs` belongs. A response belongs to
the request whose id it carries; it may be read before the call that writes the request
returns. -/
def unanswered (ws : List ℕ) (rs : List ChunkResponse) : List ℕ :=
  ws.filter fun id => id ∉ rs.map fun response => toSizeT response.originalClientChunkId

theorem unanswered_sublist (ws : List ℕ) (rs rs' : List ChunkResponse) :
    (unanswered ws (rs ++ rs')).Sublist (unanswered ws rs) := by
  refine List.monotone_filter_right ws fun id hid => ?_
  simp only [decide_eq_true_eq, List.map_append, List.mem_append, not_or] at hid ⊢
  exact hid.1

theorem unanswered_subset (ws : List ℕ) (id : ℕ) (rs : List ChunkResponse) :
    unanswered (ws ++ [id]) rs ⊆ id :: unanswered ws rs := by
  intro id' hid
  rw [unanswered, List.mem_filter, List.mem_append, List.mem_singleton] at hid
  obtain ⟨hmem | rfl, hnot⟩ := hid
  · exact List.mem_cons_of_mem _ (List.mem_filter.mpr ⟨hmem, hnot⟩)
  · exact List.mem_cons_self

/-- The ids that were not answered at the writer's program counter: while it is in its loop
they are in the map, but for the one it is about to enter. -/
def AtWindow (P : Params) (us : List ℕ) (s : ClientState) : Prop :=
  match s.writer with
  | .notStarted | .wait =>
    s.inflightRequestsMap.keys.length ≤ P.maxInflightRequests ∧ us ⊆ s.inflightRequestsMap.keys
  | .nextChunk | .write _ _ => s.HasRoom P ∧ us ⊆ s.inflightRequestsMap.keys
  | .insert logEntry =>
    s.HasRoom P ∧ us ⊆ logEntry.clientAssignedId :: s.inflightRequestsMap.keys
  | .finish | .writesDone | .notifyAll | .done =>
    s.inflightRequestsMap.keys.length ≤ P.maxInflightRequests ∧ us.length ≤ P.maxInflightRequests

theorem AtWindow.keys_le (h : AtWindow P us s) :
    s.inflightRequestsMap.keys.length ≤ P.maxInflightRequests := by
  unfold AtWindow at h
  split at h
  any_goals exact h.1
  all_goals exact Nat.le_of_lt h.1

/-- The request that is about to be entered fits into the window too. -/
theorem AtWindow.length_le (h : AtWindow P us s) (hnodup : us.Nodup) :
    us.length ≤ P.maxInflightRequests := by
  have hkeys : us ⊆ s.inflightRequestsMap.keys → us.length ≤ P.maxInflightRequests :=
    fun hsubset => (hnodup.subperm hsubset).length_le.trans h.keys_le
  cases hw : s.writer with
  | insert entry =>
    simp only [AtWindow, hw] at h
    exact (hnodup.subperm h.2).length_le.trans h.1
  | notStarted | wait | nextChunk | write =>
    simp only [AtWindow, hw] at h
    exact hkeys h.2
  | finish | writesDone | notifyAll | done =>
    simp only [AtWindow, hw] at h
    exact h.2

/-- The window of the client after the requests `ws` were written and the responses `rs` read. -/
structure Window (P : Params) (ws : List ℕ) (rs : List ChunkResponse) (s : ClientState) :
    Prop where
  pc : AtWindow P (unanswered ws rs) s
  nodup : ws.Nodup
  le_counter : ∀ id ∈ ws, id ≤ s.clientChunkIdCounter
  fresh : ∀ {request entry}, s.writer = .write request entry →
    entry.clientAssignedId = s.clientChunkIdCounter ∧ s.clientChunkIdCounter ∉ ws
  looking : ∀ {response now}, s.main = .lookup response now → response ∈ rs
  start : s.main = .start → s.writer = .notStarted

theorem Window.unanswered_nodup (h : Window P ws rs s) : (unanswered ws rs).Nodup :=
  h.nodup.filter _

theorem window_init (P : Params) (disk : Disk) (chunkSize : ChunkSize) :
    Window P [] [] (.init disk chunkSize) where
  pc := ⟨Nat.zero_le _, List.nil_subset _⟩
  nodup := List.nodup_nil
  le_counter := by simp
  fresh h := by cases h
  looking h := by cases h
  start _ := rfl

/-! ### Steps of the writer thread -/

/-- Entering a request leaves no other one out. -/
theorem subset_keys_insert {id : ℕ} {entry : SentChunkInfo}
    {m : AList fun _ : ℕ => SentChunkInfo} (h : us ⊆ id :: m.keys) :
    us ⊆ (m.insert id entry).keys := by
  refine List.Subset.trans h fun id' hid => ?_
  rw [AList.keys_insert]
  by_cases heq : id' = id
  · rw [heq]
    exact List.mem_cons_self
  · have hmem : id' ∈ m.keys := (List.mem_cons.mp hid).resolve_left heq
    exact List.mem_cons_of_mem _ ((List.mem_erase_of_ne heq).mpr hmem)

/-- The writer has left its loop, or never entered it. -/
theorem Window.leave (h : Window P ws rs s)
    (hmap : t.inflightRequestsMap = s.inflightRequestsMap)
    (hcounter : t.clientChunkIdCounter = s.clientChunkIdCounter) (hmain : t.main = s.main)
    (hstart : s.main ≠ .start)
    (hw : t.writer = .finish ∨ t.writer = .writesDone ∨ t.writer = .notifyAll ∨ t.writer = .done) :
    Window P ws rs t := by
  have hkeys := h.pc.keys_le
  have hlength := h.pc.length_le h.unanswered_nodup
  refine ⟨?_, h.nodup, hcounter ▸ h.le_counter, fun hwrite => ?_, hmain ▸ h.looking,
    fun hm => absurd (hmain.symm.trans hm) hstart⟩
  · rw [← hmap] at hkeys
    rcases hw with hw | hw | hw | hw <;> simp only [AtWindow, hw] <;> exact ⟨hkeys, hlength⟩
  · rcases hw with hw | hw | hw | hw <;> rw [hw] at hwrite <;> cases hwrite

theorem Window.of_writerStep {a : WriterAction} (h : Window P ws rs s)
    (hs : writerStep P s a = some t) :
    Window P (ws ++ (writtenId s (.writer a)).toList) rs t := by
  have hframe := writerStep_frame hs
  have hstart : s.main ≠ .start := fun hm => hframe.started (h.start hm)
  have hstart' : t.main = .start → t.writer = .notStarted :=
    fun hm => absurd (hframe.main.symm.trans hm) hstart
  have hlooking : ∀ {response now}, t.main = .lookup response now → response ∈ rs :=
    fun hm => h.looking (hframe.main.symm.trans hm)
  have hpc := h.pc
  cases a with
  | wake =>
    obtain ⟨hw, hroom, rfl⟩ := wake_iff.mp hs
    simp only [AtWindow, hw] at hpc
    simp only [writtenId, Option.toList_none, List.append_nil]
    exact ⟨⟨hroom, hpc.2⟩, h.nodup, h.le_counter, nofun, hlooking, hstart'⟩
  | nextChunk now =>
    obtain ⟨hw, rfl⟩ := nextChunk_iff.mp hs
    simp only [AtWindow, hw] at hpc
    simp only [writtenId, Option.toList_none, List.append_nil]
    rcases prepare_cases P s now with ⟨-, -, hp⟩ | ⟨-, -, hp⟩ | ⟨-, request, entry, hp, hreq⟩
    · rw [hp]
      exact h.leave rfl rfl rfl hstart (.inl rfl)
    · rw [hp]
      exact h.leave rfl rfl rfl hstart (.inr (.inr (.inr rfl)))
    · obtain ⟨-, -, hid, -⟩ := hreq
      rw [hp] at hlooking hstart' ⊢
      refine ⟨hpc, h.nodup, fun id hmem => ?_, fun hwrite => ?_, hlooking, hstart'⟩
      · exact (h.le_counter id hmem).trans (Nat.le_succ _)
      · cases hwrite
        exact ⟨hid, fun hmem => absurd (h.le_counter _ hmem) (Nat.not_succ_le_self _)⟩
  | throws what =>
    obtain ⟨-, rfl⟩ := writer_throws_iff.mp hs
    simp only [writtenId, Option.toList_none, List.append_nil]
    exact h.leave rfl rfl rfl hstart (.inl rfl)
  | write ok =>
    obtain ⟨request, entry, hw, rfl⟩ := write_iff.mp hs
    cases ok with
    | true =>
      simp only [AtWindow, hw] at hpc
      obtain ⟨hid, hfresh⟩ := h.fresh hw
      simp only [writtenId, hw, Option.toList_some]
      refine ⟨⟨hpc.1, ?_⟩, ?_, fun id hmem => ?_, nofun, hlooking, hstart'⟩
      · exact List.Subset.trans (unanswered_subset ws entry.clientAssignedId rs)
          (List.cons_subset_cons _ hpc.2)
      · rw [hid, ← List.concat_eq_append]
        exact h.nodup.concat hfresh
      · rcases List.mem_append.mp hmem with hmem | hmem
        · exact h.le_counter id hmem
        · exact (List.mem_singleton.mp hmem).trans_le hid.le
    | false =>
      simp only [writtenId, Option.toList_none, List.append_nil]
      exact h.leave rfl rfl rfl hstart (.inl rfl)
  | insert =>
    obtain ⟨entry, hw, rfl⟩ := insert_iff.mp hs
    simp only [AtWindow, hw] at hpc
    obtain ⟨hroom, hsubset⟩ := hpc
    simp only [writtenId, Option.toList_none, List.append_nil]
    refine ⟨⟨?_, subset_keys_insert hsubset⟩, h.nodup, h.le_counter, nofun, hlooking, hstart'⟩
    rw [AList.keys_insert, List.length_cons]
    exact Nat.lt_of_le_of_lt (List.length_erase_le ..) hroom
  | finish =>
    obtain ⟨-, rfl⟩ := writer_finish_iff.mp hs
    simp only [writtenId, Option.toList_none, List.append_nil]
    refine h.leave rfl rfl rfl hstart ?_
    cases s.writerStreamBroken
    · exact .inr (.inl rfl)
    · exact .inr (.inr (.inl rfl))
  | writesDone ok =>
    obtain ⟨-, rfl⟩ := writesDone_iff.mp hs
    simp only [writtenId, Option.toList_none, List.append_nil]
    exact h.leave rfl rfl rfl hstart (.inr (.inr (.inl rfl)))
  | notifyAll =>
    obtain ⟨-, rfl⟩ := notifyAll_iff.mp hs
    simp only [writtenId, Option.toList_none, List.append_nil]
    exact h.leave rfl rfl rfl hstart (.inr (.inr (.inr rfl)))

/-! ### Steps of the other thread -/

/-- An id only leaves the map when a response with it is looked up. -/
theorem mainStep_keeps {a : MainAction} (hs : mainStep P s a = some t) {id : ℕ}
    (hid : id ∈ s.inflightRequestsMap.keys) :
    id ∈ t.inflightRequestsMap.keys ∨ ∃ response now, s.main = .lookup response now ∧
      toSizeT response.originalClientChunkId = id := by
  cases a with
  | openStream ok now =>
    obtain ⟨-, rfl⟩ := openStream_iff.mp hs
    cases ok <;> exact .inl hid
  | read response now =>
    obtain ⟨-, rfl⟩ := read_iff.mp hs
    exact .inl hid
  | throws what =>
    obtain ⟨-, rfl⟩ := main_throws_iff.mp hs
    exact .inl hid
  | lookup =>
    obtain ⟨response, now, hm, rfl⟩ := lookup_iff.mp hs
    rcases lookup_cases s response now with ⟨entry, -, heq⟩ | ⟨-, message, heq⟩
    · by_cases hsame : toSizeT response.originalClientChunkId = id
      · exact .inr ⟨response, now, hm, hsame⟩
      · rw [heq, AList.keys_erase]
        exact .inl ((List.mem_erase_of_ne (Ne.symm hsame)).mpr hid)
    · rw [heq]
      exact .inl hid
  | account =>
    obtain ⟨_, _, _, -, rfl⟩ := account_iff.mp hs
    exact .inl hid
  | verify =>
    obtain ⟨entry, response, -, rfl⟩ := verify_iff.mp hs
    rcases verify_cases s entry response with ⟨-, heq⟩ | ⟨-, message, heq⟩ <;>
      rw [heq] <;> exact .inl hid
  | join =>
    obtain ⟨-, -, rfl⟩ := join_iff.mp hs
    exact .inl hid
  | leftover =>
    obtain ⟨-, rfl⟩ := leftover_iff.mp hs
    rcases leftover_cases s with ⟨-, heq⟩ | ⟨-, message, heq⟩ <;> rw [heq] <;> exact .inl hid
  | finish status now =>
    obtain ⟨-, rfl⟩ := main_finish_iff.mp hs
    obtain ⟨m, -, ⟨-, heq⟩ | ⟨-, message, heq⟩⟩ := finish_cases s status now <;>
      rw [heq] <;> exact .inl hid
  | check =>
    obtain ⟨status, -, rfl⟩ := check_iff.mp hs
    obtain ⟨-, ⟨-, message, heq⟩ | ⟨-, heq⟩⟩ | ⟨-, heq⟩ := check_cases P s status <;>
      rw [heq] <;> exact .inl hid

/-- A lookup is of a response that was just read. -/
theorem mainStep_looks {a : MainAction} (hs : mainStep P s a = some t)
    {response : ChunkResponse} {now : ℤ} (hm : t.main = .lookup response now) :
    a = .read (some response) now := by
  cases a with
  | openStream ok now =>
    obtain ⟨-, rfl⟩ := openStream_iff.mp hs
    cases ok <;> cases hm
  | read response now =>
    obtain ⟨-, rfl⟩ := read_iff.mp hs
    cases response <;> cases hm
    rfl
  | throws what =>
    obtain ⟨-, rfl⟩ := main_throws_iff.mp hs
    cases hm
  | lookup =>
    obtain ⟨response, now, -, rfl⟩ := lookup_iff.mp hs
    rcases lookup_cases s response now with ⟨entry, -, heq⟩ | ⟨-, message, heq⟩ <;>
      rw [heq] at hm <;> cases hm
  | account =>
    obtain ⟨_, _, _, -, rfl⟩ := account_iff.mp hs
    cases hm
  | verify =>
    obtain ⟨entry, response, -, rfl⟩ := verify_iff.mp hs
    rcases verify_cases s entry response with ⟨-, heq⟩ | ⟨-, message, heq⟩ <;>
      rw [heq] at hm <;> cases hm
  | join =>
    obtain ⟨-, -, rfl⟩ := join_iff.mp hs
    cases hm
  | leftover =>
    obtain ⟨-, rfl⟩ := leftover_iff.mp hs
    rcases leftover_cases s with ⟨-, heq⟩ | ⟨-, message, heq⟩ <;> rw [heq] at hm <;> cases hm
  | finish status now =>
    obtain ⟨-, rfl⟩ := main_finish_iff.mp hs
    obtain ⟨m, -, ⟨-, heq⟩ | ⟨-, message, heq⟩⟩ := finish_cases s status now <;>
      rw [heq] at hm <;> cases hm
  | check =>
    obtain ⟨status, -, rfl⟩ := check_iff.mp hs
    obtain ⟨-, ⟨-, message, heq⟩ | ⟨-, heq⟩⟩ | ⟨-, heq⟩ := check_cases P s status <;>
      rw [heq] at hm <;> cases hm

/-- A response that is read or looked up only makes room. -/
theorem AtWindow.of_main (h : AtWindow P us s) (hw : t.writer = s.writer)
    (hkeys : t.inflightRequestsMap.keys ⊆ s.inflightRequestsMap.keys)
    (hus : us'.Sublist us)
    (hkept : ∀ id ∈ us', id ∈ s.inflightRequestsMap.keys → id ∈ t.inflightRequestsMap.keys) :
    AtWindow P us' t := by
  have hle : t.inflightRequestsMap.keys.length ≤ s.inflightRequestsMap.keys.length :=
    (t.inflightRequestsMap.keys_nodup.subperm hkeys).length_le
  have hsubset : us ⊆ s.inflightRequestsMap.keys → us' ⊆ t.inflightRequestsMap.keys :=
    fun hsub id hid => hkept id hid (hsub (hus.subset hid))
  cases hpc : s.writer with
  | notStarted | wait | nextChunk | write =>
    simp only [AtWindow, hw, hpc, ClientState.HasRoom] at h ⊢
    exact ⟨by omega, hsubset h.2⟩
  | insert entry =>
    simp only [AtWindow, hw, hpc, ClientState.HasRoom] at h ⊢
    refine ⟨by omega, fun id hid => ?_⟩
    rcases List.mem_cons.mp (h.2 (hus.subset hid)) with rfl | hmem
    · exact List.mem_cons_self
    · exact List.mem_cons_of_mem _ (hkept id hid hmem)
  | finish | writesDone | notifyAll | done =>
    simp only [AtWindow, hw, hpc] at h ⊢
    exact ⟨hle.trans h.1, hus.length_le.trans h.2⟩

theorem Window.of_mainStep {a : MainAction} (h : Window P ws rs s)
    (hs : mainStep P s a = some t) :
    Window P ws (rs ++ (received s (.main a)).toList) t := by
  have hframe := mainStep_frame hs
  have hsublist := unanswered_sublist ws rs (received s (.main a)).toList
  have hkept : ∀ id ∈ unanswered ws (rs ++ (received s (.main a)).toList),
      id ∈ s.inflightRequestsMap.keys → id ∈ t.inflightRequestsMap.keys := by
    intro id hid hmem
    rcases mainStep_keeps hs hmem with hmem | ⟨response, now, hm, rfl⟩
    · exact hmem
    · have hread := List.mem_append_left (received s (.main a)).toList (h.looking hm)
      rw [unanswered, List.mem_filter, decide_eq_true_eq] at hid
      exact absurd (List.mem_map_of_mem hread) hid.2
  have hkeys : t.inflightRequestsMap.keys ⊆ s.inflightRequestsMap.keys := by
    intro id hid
    obtain ⟨entry, hl⟩ := Option.isSome_iff_exists.mp (AList.lookup_isSome.mpr hid)
    exact AList.lookup_isSome.mp (by rw [hframe.lookup hl]; rfl)
  constructor
  · rcases hframe.writer with hw | ⟨hm, hw⟩
    · exact h.pc.of_main hw hkeys hsublist hkept
    · have hpc := h.pc
      have hidle : AtWindow P (unanswered ws rs) { s with writer := .wait } := by
        simp only [AtWindow, h.start hm] at hpc
        exact hpc
      exact hidle.of_main hw hkeys hsublist hkept
  · exact h.nodup
  · rw [hframe.counter]
    exact h.le_counter
  · intro request entry hwrite
    rcases hframe.writer with hw | ⟨-, hw⟩
    · rw [hframe.counter]
      exact h.fresh (hw.symm.trans hwrite)
    · rw [hw] at hwrite
      cases hwrite
  · intro response now hm
    obtain rfl := mainStep_looks hs hm
    exact List.mem_append_right _ List.mem_cons_self
  · exact fun hm => absurd hm hframe.main

/-! ### Whole runs -/

theorem Window.of_run {disk : Disk} {chunkSize : ChunkSize} {as : List Action}
    (h : run (step P) as (.init disk chunkSize) = some t) :
    Window P (log (step P) writtenId as (.init disk chunkSize))
      (log (step P) received as (.init disk chunkSize)) t := by
  refine run_induction (P := fun as t => Window P (log (step P) writtenId as (.init disk chunkSize))
    (log (step P) received as (.init disk chunkSize)) t) (window_init P disk chunkSize) ?_ as t h
  intro as t a u ht ih hu
  rw [log_concat _ _ ht, log_concat _ _ ht]
  cases a with
  | writer a =>
    simp only [received, Option.toList_none, List.append_nil]
    exact ih.of_writerStep hu
  | main a =>
    simp only [writtenId, Option.toList_none, List.append_nil]
    exact ih.of_mainStep hu

/-- In every state of every run the map has room for what it holds, and no more requests are
without an answer than the window allows. -/
theorem window_bound {disk : Disk} {chunkSize : ChunkSize} {as : List Action}
    (h : run (step P) as (.init disk chunkSize) = some t) :
    t.inflightRequestsMap.keys.length ≤ P.maxInflightRequests ∧
    (log (step P) writtenId as (.init disk chunkSize)).Nodup ∧
    (unanswered (log (step P) writtenId as (.init disk chunkSize))
      (log (step P) received as (.init disk chunkSize))).length ≤ P.maxInflightRequests := by
  have hwindow := Window.of_run h
  exact ⟨hwindow.pc.keys_le, hwindow.nodup, hwindow.pc.length_le hwindow.unanswered_nodup⟩

/-- Two requests are written and entered, and none is answered. -/
def unansweredRun : List Action :=
  [.main (.openStream true 0), .writer .wake, .writer (.nextChunk 0), .writer (.write true),
    .writer .insert, .writer .wake, .writer (.nextChunk 0), .writer (.write true), .writer .insert]

/-- A window of two requests is full: the writer cannot go on. -/
theorem window_bound_full :
    ∃ t, run (step ⟨2, 3, fun _ => 0⟩) unansweredRun
        (.init (Disk.ofFile ⟨[1, 2, 3], by decide⟩) ⟨1, by decide, by decide⟩) = some t ∧
      t.inflightRequestsMap.keys.length = 2 ∧ (unanswered [1, 2] []).length = 2 ∧
      step ⟨2, 3, fun _ => 0⟩ t (.writer .wake) = none := by
  have hrun : (run (step ⟨2, 3, fun _ => 0⟩) unansweredRun
      (.init (Disk.ofFile ⟨[1, 2, 3], by decide⟩) ⟨1, by decide, by decide⟩)).map
        (fun t => (decide (2 ≤ t.inflightRequestsMap.keys.length),
          (step ⟨2, 3, fun _ => 0⟩ t (.writer .wake)).isNone)) = some (true, true) := by
    decide +kernel
  have hlogs : unanswered (log (step ⟨2, 3, fun _ => 0⟩) writtenId unansweredRun
      (.init (Disk.ofFile ⟨[1, 2, 3], by decide⟩) ⟨1, by decide, by decide⟩))
      (log (step ⟨2, 3, fun _ => 0⟩) received unansweredRun
        (.init (Disk.ofFile ⟨[1, 2, 3], by decide⟩) ⟨1, by decide, by decide⟩)) =
      unanswered [1, 2] [] := by
    decide +kernel
  obtain ⟨t, ht, hfull⟩ := Option.map_eq_some_iff.mp hrun
  obtain ⟨hkeys, hnone⟩ := Prod.mk.inj hfull
  obtain ⟨hle, -, hlength⟩ := window_bound ht
  rw [hlogs] at hlength
  exact ⟨t, ht, le_antisymm hle (of_decide_eq_true hkeys), le_antisymm hlength (by decide),
    Option.isNone_iff_eq_none.mp hnone⟩

end ReversalBench.Grpc
