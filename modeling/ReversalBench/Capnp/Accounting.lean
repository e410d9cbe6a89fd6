import ReversalBench.Capnp.Exit

/-! The payload and the round-trip times that the Cap'n Proto client records. A chunk is recorded
as sent before its call is made, and measured after the call has returned; when the call throws
the metrics are saved with the chunk in the payload and without its sample. -/

namespace ReversalBench.Capnp

open Blocks (blocks)
open Machine (Halts observed)

namespace Client

/-- The chunk whose round-trip time the next step records. -/
def measuredChunk (env : Env) (c : Client) : Option (List UInt8) :=
  match c.pc with
  | .loop =>
    let chunkBuffer := c.reader.nextChunk.1
    match env.processChunk c.chunksSent with
    | .error _ => none
    | .ok _ => if chunkBuffer.isEmpty then none else some chunkBuffer
  | _ => none

variable {f : File} {chunkSize : ChunkSize} {target k : ℕ} {env : Env} {c t : Client}
  {l : List (List UInt8)}

/-- The metrics describe the chunks of `l`. -/
def Balanced (l : List (List UInt8)) (c : Client) : Prop :=
  c.metrics.Accounts (l.map List.length)

/-- The loop is reached and a call in it throws. -/
def ChunkCallThrows (env : Env) (f : File) (chunkSize : ChunkSize) (target : ℕ) : Prop :=
  env.Starts target ∧ env.CallThrows (blocks chunkSize.val f.bytes)

/-- The metrics describe what was measured until the program ends; then they do so unless the
call of a chunk has thrown. -/
def Accounted (f : File) (chunkSize : ChunkSize) (target : ℕ) (env : Env) (c : Client)
    (l : List (List UInt8)) : Prop :=
  match c.pc with
  | .exited _ => Balanced l c ↔ ¬ChunkCallThrows env f chunkSize target
  | _ => Balanced l c

theorem accounted_of_balanced (hpc : ∀ status, c.pc ≠ .exited status) (h : Balanced l c) :
    Accounted f chunkSize target env c l := by
  unfold Accounted
  split
  next status hexit => exact absurd hexit (hpc status)
  · exact h

theorem Accounted.balanced (h : Accounted f chunkSize target env c l)
    (hpc : ∀ status, c.pc ≠ .exited status) : Balanced l c := by
  unfold Accounted at h
  split at h
  next status hexit => exact absurd hexit (hpc status)
  · exact h

/-- An exchange whose call throws leaves the chunk without a sample. -/
theorem not_balanced_of_throw (h : Balanced l c) {chunk : List UInt8} (hne : chunk ≠ [])
    (e : Thrown) : ¬Balanced l ((c.send chunk).caught e) := by
  intro hb
  have hpayload : c.metrics.actualPayloadTransferredBytes + chunk.length =
      (l.map List.length).sum := hb.payload
  have hpos := List.length_pos_of_ne_nil hne
  have hbefore := h.payload
  omega

/-- An exchange whose call returns records both. -/
theorem balanced_received (h : Balanced l c) (chunk : List UInt8) (now : ℤ) :
    Balanced (l ++ [chunk]) ((c.send chunk).received now) := by
  unfold Balanced
  rw [List.map_append, List.map_singleton]
  exact h.record le_rfl _

theorem balanced_verify (h : Balanced l c) (chunk response : List UInt8) :
    Balanced l (c.verify chunk response) := by
  unfold verify
  dsimp only
  split
  · exact (h.logError _).setTotalTransactionTimeMs _
  · split
    · exact (h.logError _).setTotalTransactionTimeMs _
    · exact h

theorem verify_pc (c : Client) (chunk response : List UInt8) :
    (c.verify chunk response).pc = c.pc ∨ (c.verify chunk response).pc = .doneStreaming := by
  unfold verify
  dsimp only
  split
  · exact .inr rfl
  · split
    · exact .inr rfl
    · exact .inl rfl

/-- A round of the loop. -/
theorem Sending.accounted_round (h : Sending f chunkSize env k c) (hpc : c.pc = .loop)
    (hstarts : env.Starts target) (hb : Balanced l c) :
    Accounted f chunkSize target env (c.round env) (l ++ (measuredChunk env c).toList) := by
  have hround := h.round_eq
  obtain rfl := h.chunksSent
  rcases hround with ⟨hend, hround⟩ | ⟨hk, hread, -, hround⟩
  · have hobs : measuredChunk env c = none := by
      obtain ⟨hnil, -⟩ := h.reader.nextChunk_end hend.ge
      simp only [measuredChunk, hpc, hnil]
      split <;> rfl
    rw [hround, hobs, Option.toList_none, List.append_nil]
    exact hb.setTotalTransactionTimeMs _
  · have hne := Blocks.ne_nil_of_mem_blocks chunkSize.pos (List.getElem_mem hk)
    rw [hround]
    cases hreply : env.processChunk c.chunksSent with
    | error e =>
      have hobs : measuredChunk env c = none := by simp [measuredChunk, hpc, hreply]
      simp only [exchange, hreply, hobs, Option.toList_none, List.append_nil]
      refine iff_of_false (not_balanced_of_throw hb hne e) (not_not.mpr ⟨hstarts, ?_⟩)
      exact ⟨_, hk, h.replies, e, hreply⟩
    | ok response =>
      have hobs : measuredChunk env c = some (blocks chunkSize.val f.bytes)[c.chunksSent] := by
        simp [measuredChunk, hpc, hreply, hread, hne]
      simp only [exchange, hreply, hobs, Option.toList_some]
      have hbefore : Balanced l { c with reader := c.reader.nextChunk.2 } := hb
      refine accounted_of_balanced (fun status hexit => ?_)
        (balanced_verify (balanced_received hbefore _ _) _ _)
      rcases verify_pc (({ c with reader := c.reader.nextChunk.2 }.send
          (blocks chunkSize.val f.bytes)[c.chunksSent]).received c.clock.now)
        (blocks chunkSize.val f.bytes)[c.chunksSent] response with hsame | hdone
      · rw [hsame] at hexit
        exact absurd (hpc.symm.trans hexit) (by simp)
      · rw [hdone] at hexit
        cases hexit

/-- A call outside the loop that throws ends the program with the metrics as they are. -/
theorem accounted_awaited {outcome : Except Thrown Unit} {pc : Pc} (hb : Balanced l c)
    (hpc : ∀ status, pc ≠ .exited status)
    (hthrow : outcome ≠ .ok () → ¬ChunkCallThrows env f chunkSize target) :
    Accounted f chunkSize target env (c.awaited outcome pc) l := by
  cases houtcome : outcome with
  | error e => exact iff_of_true (hb.logError _) (hthrow (by simp [houtcome]))
  | ok => exact accounted_of_balanced hpc hb

/-- Past the loop no call of a chunk has thrown. -/
theorem Inv.not_chunkCallThrows (h : Inv f chunkSize target env c)
    (hpc : c.pc = .doneStreaming ∨ c.pc = .save) : ¬ChunkCallThrows env f chunkSize target := by
  rintro ⟨-, hthrows⟩
  rcases hpc with hpc | hpc
  · simp only [Inv, hpc] at h
    obtain ⟨hsent | hwrong, -⟩ := h
    · exact hsent.replies.all.2 hthrows
    · exact hwrong.not_callThrows hthrows
  · simp only [Inv, hpc] at h
    obtain ⟨hverified | hwrong, -⟩ := h
    · exact hverified.replies.all.2 hthrows
    · exact hwrong.not_callThrows hthrows

/-- Outside the loop nothing is measured. -/
theorem measuredChunk_of_ne_loop (hpc : c.pc ≠ .loop) : measuredChunk env c = none := by
  unfold measuredChunk
  split
  next hloop => exact absurd hloop hpc
  · rfl

/-- One step of `main`. -/
theorem Accounted.next (h : Accounted f chunkSize target env c l)
    (hinv : Inv f chunkSize target env c)
    (hnext : Client.next (params f chunkSize target) env c = some t) :
    Accounted f chunkSize target env t (l ++ (measuredChunk env c).toList) := by
  by_cases hloop : c.pc = .loop
  · have hb : Balanced l c := h.balanced (by simp [hloop])
    simp only [Inv, hloop] at hinv
    obtain ⟨⟨k, hsending⟩, hstarts⟩ := hinv
    simp only [Client.next, hloop, Option.some.injEq] at hnext
    exact hnext ▸ hsending.accounted_round hloop hstarts hb
  · rw [measuredChunk_of_ne_loop hloop, Option.toList_none, List.append_nil]
    cases hc : c.pc with
    | loop => exact absurd hc hloop
    | exited status => simp [Client.next, hc] at hnext
    | prepareFile =>
      have hb : Balanced l c := h.balanced (by simp [hc])
      simp only [Client.next, hc] at hnext
      split at hnext <;> cases hnext
      · exact accounted_of_balanced (by simp) hb
      next hno => exact iff_of_true (hb.logError _) fun hthrows => hno hthrows.1.prepared
    | connect =>
      have hb : Balanced l c := h.balanced (by simp [hc])
      simp only [Client.next, hc, Option.some.injEq] at hnext
      exact hnext ▸ accounted_awaited hb (by simp) fun hfail hthrows => hfail hthrows.1.connect
    | startStreaming =>
      have hb : Balanced l (c.call .startStreaming) := h.balanced (by simp [hc])
      simp only [Client.next, hc, Option.some.injEq] at hnext
      exact hnext ▸ accounted_awaited hb (by simp)
        fun hfail hthrows => hfail hthrows.1.startStreaming
    | openFile =>
      have hb : Balanced l c := h.balanced (by simp [hc])
      simp only [Client.next, hc] at hnext
      split at hnext <;> cases hnext
      next e herror =>
        refine iff_of_true (hb.logError _) fun hthrows => ?_
        rw [hthrows.1.openFile] at herror
        cases herror
      · exact accounted_of_balanced (by simp) hb
    | doneStreaming =>
      have hb : Balanced l (c.call .doneStreaming) := h.balanced (by simp [hc])
      simp only [Client.next, hc, Option.some.injEq] at hnext
      exact hnext ▸ accounted_awaited hb (by simp) fun _ => hinv.not_chunkCallThrows (.inl hc)
    | finalCheck =>
      have hb : Balanced l c := h.balanced (by simp [hc])
      simp only [Client.next, hc, Option.some.injEq] at hnext
      subst hnext
      unfold Client.finalCheck
      split
      · exact accounted_of_balanced (by simp) (hb.logError _)
      · exact accounted_of_balanced (by simp) hb
    | save =>
      have hb : Balanced l c := h.balanced (by simp [hc])
      simp only [Client.next, hc, Option.some.injEq] at hnext
      subst hnext
      exact iff_of_true hb (hinv.not_chunkCallThrows (.inr hc))

/-! ### Whole runs -/

/-- The metrics of a program that has ended describe the chunks that were measured, unless the
call of a chunk has thrown. -/
theorem accounts_iff {clock : Clock}
    (h : Halts (observed (Client.next (params f chunkSize target) env) (measuredChunk env))
      (init (params f chunkSize target) clock, []) (t, l)) :
    t.metrics.Accounts (l.map List.length) ↔ ¬ChunkCallThrows env f chunkSize target := by
  obtain ⟨hreach, hstop⟩ := h
  have hinit : Inv f chunkSize target env (init (params f chunkSize target) clock) :=
    ⟨rfl, rfl, rfl⟩
  have hnew : Accounted f chunkSize target env (init (params f chunkSize target) clock) [] :=
    Common.MetricsAggregator.accounts_new
  have hinv : Inv f chunkSize target env t ∧ Accounted f chunkSize target env t l := by
    refine Machine.invariant_reaches
      (P := fun s => Inv f chunkSize target env s.1 ∧ Accounted f chunkSize target env s.1 s.2)
      ?_ ⟨hinit, hnew⟩ hreach
    rintro ⟨c, l⟩ ⟨d, m⟩ ⟨hinv, hacc⟩ hnext
    obtain ⟨hnext, hlog⟩ := Machine.observed_eq_some.mp hnext
    have hgoes : ∀ status, c.pc ≠ .exited status := by
      intro status hpc
      simp [Client.next, hpc] at hnext
    obtain ⟨d', hnext', hinv', -⟩ := next_advances hinv hgoes
    cases hnext.symm.trans hnext'
    subst hlog
    exact ⟨hinv', hacc.next hinv hnext⟩
  obtain ⟨hinv, hacc⟩ := hinv
  -- where `main` stops it has exited
  cases hpc : t.pc with
  | exited status =>
    simp only [Accounted, hpc] at hacc
    exact hacc
  | _ =>
    obtain ⟨d, hnext, -⟩ := next_advances hinv (by simp [hpc])
    simp [observed, hnext] at hstop

end Client

end ReversalBench.Capnp
