import ReversalBench.GoTcp.ShortReads

/-! The exit status of the Go client (`client/main.go`), over any connection and any reads of the
file. Each error path of the loop ends in `os.Exit(1)` or `log.Fatalf`, and so do those before
and after it; only when every chunk that was read was answered by its reversal does `main`
return. A read that delivers nothing counts as the end of the file, wherever it is. -/

namespace ReversalBench.GoTcp

namespace Surroundings

variable {env : Surroundings} {totalFileSize : ℕ}

end Surroundings

namespace Client

variable {σ : Type*} (host : Host σ)

/-- A chunk is sent and answered by its reversal; the connection afterwards. -/
def exchanged (conn : σ) (chunk : List UInt8) : Option σ :=
  match writeMessage host.toNetConn (host.now conn).2 chunk with
  | (some _, _) => none
  | (none, conn) =>
    match readMessage host.toNetConn conn with
    | (.error _, _) => none
    | (.ok receivedData, conn) =>
      if receivedData = chunk.reverse then some (host.now conn).2 else none

/-- A chunk that is read is not sent, not answered, or not answered by its reversal. -/
def Fails (disk : Disk) (chunkSize : ChunkSize) (conn : σ) : Prop :=
  (chunks disk chunkSize.val).foldlM (exchanged host) conn = none

/-- No read fails and all chunks that are read are answered by their reversals, but they are not
the whole file. -/
structure EndsEarly (disk : Disk) (chunkSize : ChunkSize) (target : ℕ) (conn : σ) : Prop where
  reads : ¬ ReadFails disk chunkSize.val
  exchanged : ¬ Fails host disk chunkSize conn
  part : ¬ disk.Whole target (disk.offset chunkSize.val (lastRead disk chunkSize.val + 1))

/-! ### Rounds of the loop -/

variable {host} {disk : Disk} {chunkSize : ChunkSize} {k : ℕ} {c : Client σ} {conn : σ}
  {chunk : List UInt8}

/-- A chunk that is not answered by its reversal aborts the program. -/
theorem exchange_none (h : exchanged host c.conn chunk = none) :
    ∃ why, (exchange host c chunk).status = .aborted why := by
  obtain ⟨sent, conn, hwrite⟩ : ∃ sent conn,
      writeMessage host.toNetConn (host.now c.conn).2 chunk = (sent, conn) := ⟨_, _, rfl⟩
  cases sent with
  | some err =>
    exact ⟨.writeFailed err, by simp only [exchange, getReversedBytes_eq, hwrite, abort]⟩
  | none =>
    obtain ⟨answer, conn', hread⟩ : ∃ answer conn',
        readMessage host.toNetConn conn = (answer, conn') := ⟨_, _, rfl⟩
    cases answer with
    | error err =>
      refine ⟨.responseFailed err, ?_⟩
      simp only [exchange, getReversedBytes_eq, hwrite, hread, abort]
    | ok receivedData =>
      have hwrong : receivedData ≠ chunk.reverse := by
        rintro rfl
        simp only [exchanged, hwrite, hread, if_true, reduceCtorEq] at h
      refine ⟨.verificationFailed, ?_⟩
      simp only [exchange, getReversedBytes_eq, hwrite, hread, hwrong, decide_false, Bool.not_false,
        if_true, abort]

/-- A chunk that came back reversed has been counted. -/
def verifiedNext (c : Client σ) (conn : σ) (rtt : ℤ) (chunk : List UInt8) : Client σ :=
  { c with
    conn := conn
    metricsAggregator := ((c.metricsAggregator.recordChunkRTT c.i rtt).recordChunkProcessed
      chunk.length).recordChunkVerified true }

/-- A chunk that is answered by its reversal is counted. -/
theorem exchange_some (h : exchanged host c.conn chunk = some conn) :
    ∃ rtt, exchange host c chunk =
      if c.chunkReader.eof ∧ chunk.length > 0 then leave host (c.verifiedNext conn rtt chunk)
      else { c.verifiedNext conn rtt chunk with i := c.i + 1 } := by
  unfold exchanged at h
  split at h
  · cases h
  next conn₁ hwrite =>
    split at h
    · cases h
    next receivedData conn₂ hread =>
      split at h
      next hright =>
        cases h
        refine ⟨(host.now conn₂).1 - (host.now c.conn).1, ?_⟩
        simp only [exchange, getReversedBytes_eq, hwrite, hread, hright, decide_true,
          Bool.not_true, Bool.false_eq_true, if_false, verifiedNext]
      · cases h

/-- In round `k` of the loop, all chunks so far verified. -/
structure Verifying (disk : Disk) (chunkSize : ChunkSize) (k : ℕ) (c : Client σ) : Prop where
  running : c.status = .running
  reader : c.chunkReader.Upto disk chunkSize k
  chunksVerifiedOK : c.metricsAggregator.chunksVerifiedOK = k
  chunksVerifiedFail : c.metricsAggregator.chunksVerifiedFail = 0
  totalBytesProcessed : c.metricsAggregator.totalBytesProcessed = disk.offset chunkSize.val k

/-- The loop is over after `m` chunks, all of them verified and counted. -/
structure Counted (disk : Disk) (chunkSize : ChunkSize) (m : ℕ) (c : Client σ) : Prop where
  finished : c.status = .finished
  chunksVerifiedOK : c.metricsAggregator.chunksVerifiedOK = m
  chunksVerifiedFail : c.metricsAggregator.chunksVerifiedFail = 0
  totalBytesProcessed : c.metricsAggregator.totalBytesProcessed = disk.offset chunkSize.val m

theorem leave_chunksVerifiedOK (c : Client σ) :
    (leave host c).metricsAggregator.chunksVerifiedOK = c.metricsAggregator.chunksVerifiedOK :=
  c.metricsAggregator.stopTimer_chunksVerifiedOK _

theorem leave_chunksVerifiedFail (c : Client σ) :
    (leave host c).metricsAggregator.chunksVerifiedFail =
      c.metricsAggregator.chunksVerifiedFail :=
  c.metricsAggregator.stopTimer_chunksVerifiedFail _

theorem leave_totalBytesProcessed (c : Client σ) :
    (leave host c).metricsAggregator.totalBytesProcessed =
      c.metricsAggregator.totalBytesProcessed :=
  c.metricsAggregator.stopTimer_totalBytesProcessed _

/-- A round in which a chunk is read and answered by its reversal. -/
theorem Verifying.next_some (h : Verifying disk chunkSize k c)
    (hne : disk.part chunkSize.val k ≠ [])
    (hex : exchanged host c.conn (disk.part chunkSize.val k) = some conn) :
    ∃ t, Client.next host c = some t ∧
      if disk.size ≤ disk.offset chunkSize.val (k + 1) then Counted disk chunkSize (k + 1) t
      else Verifying disk chunkSize (k + 1) t ∧ t.conn = conn := by
  obtain ⟨cr, hnext, heof, hmore⟩ := next_part host h.running h.reader hne
  refine ⟨_, hnext, ?_⟩
  have hpos := List.length_pos_of_ne_nil hne
  have hex : exchanged host ({ c with chunkReader := cr } : Client σ).conn
      (disk.part chunkSize.val k) = some conn := hex
  obtain ⟨rtt, hround⟩ := exchange_some hex
  have hOK := congrArg Nat.succ h.chunksVerifiedOK
  have htotal : c.metricsAggregator.totalBytesProcessed + (disk.part chunkSize.val k).length =
      disk.offset chunkSize.val (k + 1) := by
    rw [h.totalBytesProcessed, Disk.offset_succ]
  rw [hround]
  dsimp only
  split
  next hend =>
    rw [if_pos ⟨heof.trans (decide_eq_true hend), hpos⟩]
    refine ⟨rfl, ?_, ?_, ?_⟩
    · exact (leave_chunksVerifiedOK _).trans hOK
    · exact (leave_chunksVerifiedFail _).trans h.chunksVerifiedFail
    · exact (leave_totalBytesProcessed _).trans htotal
  next hgo =>
    rw [if_neg (by simp [heof, hgo])]
    exact ⟨⟨h.running, hmore (not_le.mp hgo), hOK, h.chunksVerifiedFail, htotal⟩, rfl⟩

/-- A round in which a chunk is read and is not answered by its reversal. -/
theorem Verifying.next_none (h : Verifying disk chunkSize k c)
    (hne : disk.part chunkSize.val k ≠ [])
    (hex : exchanged host c.conn (disk.part chunkSize.val k) = none) :
    ∃ t, Client.next host c = some t ∧ ∃ why, t.status = .aborted why := by
  obtain ⟨cr, hnext, -⟩ := next_part host h.running h.reader hne
  have hex : exchanged host ({ c with chunkReader := cr } : Client σ).conn
      (disk.part chunkSize.val k) = none := hex
  exact ⟨_, hnext, exchange_none hex⟩

/-! ### The loop -/

/-- How the loop ends from a round on, with the chunks that are still to be sent: aborted if one
of them is not answered by its reversal or the last read fails, else with all chunks
counted. -/
structure Outcome (host : Host σ) (disk : Disk) (chunkSize : ChunkSize) (conn : σ)
    (rest : List (List UInt8)) (t : Client σ) : Prop where
  aborted : rest.foldlM (exchanged host) conn = none ∨ ReadFails disk chunkSize.val →
    ∃ why, t.status = .aborted why
  counted : rest.foldlM (exchanged host) conn ≠ none → ¬ ReadFails disk chunkSize.val →
    Counted disk chunkSize (chunks disk chunkSize.val).length t

theorem outcome_aborted {rest : List (List UInt8)} {t : Client σ} {why : Abort}
    (hwhy : t.status = .aborted why)
    (h : rest.foldlM (exchanged host) conn = none ∨ ReadFails disk chunkSize.val) :
    Outcome host disk chunkSize conn rest t where
  aborted _ := ⟨why, hwhy⟩
  counted hsome hread := (h.elim hsome hread).elim

/-- A chunk that is answered by its reversal does not change how the loop ends. -/
theorem Outcome.cons {rest : List (List UInt8)} {conn' : σ} {t : Client σ}
    (h : Outcome host disk chunkSize conn' rest t)
    (hex : exchanged host conn chunk = some conn') :
    Outcome host disk chunkSize conn (chunk :: rest) t := by
  have hfold : (chunk :: rest).foldlM (exchanged host) conn =
      rest.foldlM (exchanged host) conn' := by
    rw [List.foldlM_cons, hex]
    rfl
  constructor
  · rw [hfold]
    exact h.aborted
  · rw [hfold]
    exact h.counted

theorem foldlM_cons_none {rest : List (List UInt8)} (hex : exchanged host conn chunk = none) :
    (chunk :: rest).foldlM (exchanged host) conn = none := by
  rw [List.foldlM_cons, hex]
  rfl

/-- The round of the last read. -/
theorem Verifying.run_last (h : Verifying disk chunkSize k c)
    (hk : lastRead disk chunkSize.val = k) :
    ∃ t, Machine.Halts (Client.next host) c t ∧
      Outcome host disk chunkSize c.conn ((chunks disk chunkSize.val).drop k) t := by
  obtain rfl := hk
  by_cases hnil : disk.part chunkSize.val (lastRead disk chunkSize.val) = []
  · have hlen : (chunks disk chunkSize.val).length = lastRead disk chunkSize.val := by
      rw [length_chunks, if_pos hnil]
    rw [List.drop_eq_nil_of_le hlen.le]
    cases hio : disk.ioError (lastRead disk chunkSize.val) with
    | true =>
      obtain ⟨cr, hnext⟩ := next_readFails host h.running h.reader hnil hio
      exact ⟨_, Machine.halts_of_step hnext (halts_of_status nofun),
        outcome_aborted rfl (.inr ⟨hnil, hio⟩)⟩
    | false =>
      obtain ⟨cr, hnext⟩ := next_end host h.running h.reader hnil hio
      refine ⟨_, Machine.halts_of_step hnext (halts_of_status nofun), ?_, fun _ _ => ?_⟩
      · rintro (hnone | ⟨-, hfails⟩)
        · cases hnone
        · rw [hio] at hfails
          cases hfails
      · rw [hlen]
        exact ⟨rfl, (leave_chunksVerifiedOK _).trans h.chunksVerifiedOK,
          (leave_chunksVerifiedFail _).trans h.chunksVerifiedFail,
          (leave_totalBytesProcessed _).trans h.totalBytesProcessed⟩
  · have hlen : (chunks disk chunkSize.val).length = lastRead disk chunkSize.val + 1 := by
      rw [length_chunks, if_neg hnil]
    have hdrop : (chunks disk chunkSize.val).drop (lastRead disk chunkSize.val) =
        [disk.part chunkSize.val (lastRead disk chunkSize.val)] := by
      rw [List.drop_eq_getElem_cons (by omega), getElem_chunks, List.drop_eq_nil_of_le hlen.le]
    rw [hdrop]
    cases hex : exchanged host c.conn (disk.part chunkSize.val (lastRead disk chunkSize.val)) with
    | none =>
      obtain ⟨t, hnext, why, hwhy⟩ := h.next_none hnil hex
      exact ⟨t, Machine.halts_of_step hnext (halts_of_status (by simp [hwhy])),
        outcome_aborted hwhy (.inl (foldlM_cons_none hex))⟩
    | some conn =>
      obtain ⟨t, hnext, hcounted⟩ := h.next_some hnil hex
      rw [if_pos ((lastRead_spec _ _).last.resolve_left hnil)] at hcounted
      refine ⟨t, Machine.halts_of_step hnext (halts_of_status (by simp [hcounted.finished])),
        ?_, fun _ _ => hlen ▸ hcounted⟩
      rintro (hnone | ⟨hempty, -⟩)
      · rw [List.foldlM_cons, hex] at hnone
        cases hnone
      · exact absurd hempty hnil

/-- From round `k` on. -/
theorem Verifying.run (n : ℕ) :
    ∀ (k : ℕ) (c : Client σ), Verifying disk chunkSize k c → lastRead disk chunkSize.val = k + n →
      ∃ t, Machine.Halts (Client.next host) c t ∧
        Outcome host disk chunkSize c.conn ((chunks disk chunkSize.val).drop k) t := by
  induction n with
  | zero =>
    intro k c h hk
    exact h.run_last hk
  | succ n ih =>
    intro k c h hn
    obtain ⟨hne, hmore⟩ := (lastRead_spec disk chunkSize.val).before k (by omega)
    have hk : k < (chunks disk chunkSize.val).length := by
      rw [length_chunks]
      split <;> omega
    rw [List.drop_eq_getElem_cons hk, getElem_chunks]
    cases hex : exchanged host c.conn (disk.part chunkSize.val k) with
    | none =>
      obtain ⟨t, hnext, why, hwhy⟩ := h.next_none hne hex
      exact ⟨t, Machine.halts_of_step hnext (halts_of_status (by simp [hwhy])),
        outcome_aborted hwhy (.inl (foldlM_cons_none hex))⟩
    | some conn =>
      obtain ⟨t, hnext, hround⟩ := h.next_some hne hex
      rw [if_neg (not_le.mpr hmore)] at hround
      obtain ⟨u, hu, houtcome⟩ := ih (k + 1) t hround.1 (by omega)
      rw [hround.2] at houtcome
      exact ⟨u, Machine.halts_of_step hnext hu, houtcome.cons hex⟩

/-- The program always leaves its loop, over any connection and any reads. -/
theorem loop_ends (host : Host σ) (disk : Disk) (chunkSize : ChunkSize) (conn : σ) :
    ∃ t, Machine.Halts (Client.next host) (start host disk chunkSize conn) t ∧
      Outcome host disk chunkSize (start host disk chunkSize conn).conn
        (chunks disk chunkSize.val) t := by
  have hstart : Verifying disk chunkSize 0 (start host disk chunkSize conn) :=
    ⟨rfl, ChunkReader.upto_new disk chunkSize, rfl, rfl, rfl⟩
  exact hstart.run _ 0 _ (Nat.zero_add _).symm

end Client

end ReversalBench.GoTcp
