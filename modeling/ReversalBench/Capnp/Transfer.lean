import ReversalBench.Capnp.Client

/-! What the Cap'n Proto client does with a file that stays unchanged when no call throws:
which calls it makes, how many bytes it counts as verified, and what it reports. -/

namespace ReversalBench.Capnp

open Blocks (blocks)

/-- All calls return, and the chunks are answered by `replies`. -/
def Env.answering (replies : ℕ → List UInt8) : Env where
  existingFileSize := none
  generateTestFile := true
  connect := .ok ()
  startStreaming := .ok ()
  openFile := .ok ()
  processChunk k := .ok (replies k)
  doneStreaming := .ok ()

/-- The first `k` replies are right, and the next one is not, if there is another chunk. -/
structure FirstWrong (chunks : List (List UInt8)) (replies : ℕ → List UInt8) (k : ℕ) : Prop where
  le : k ≤ chunks.length
  right : ∀ i (h : i < chunks.length), i < k → replies i = chunks[i].reverse
  wrong : ∀ h : k < chunks.length, replies k ≠ chunks[k].reverse

theorem FirstWrong.unique {chunks : List (List UInt8)} {replies : ℕ → List UInt8} {k k' : ℕ}
    (h : FirstWrong chunks replies k) (h' : FirstWrong chunks replies k') : k = k' := by
  rcases lt_trichotomy k k' with hlt | heq | hgt
  · have hk := hlt.trans_le h'.le
    exact absurd (h'.right k hk hlt) (h.wrong hk)
  · exact heq
  · have hk' := hgt.trans_le h.le
    exact absurd (h.right k' hk' hgt) (h'.wrong hk')

/-- A finished transfer: the calls are made in order up to the first wrong reply, the bytes
before it are counted, and errors and success are reported as they should be. -/
structure Exact (f : File) (P : Params) (replies : ℕ → List UInt8) (t : Client) (k : ℕ) :
    Prop where
  first : FirstWrong (blocks P.chunkSizeBytes.val f.bytes) replies k
  calls : t.calls = .startStreaming ::
    ((blocks P.chunkSizeBytes.val f.bytes).take (k + 1)).map .processChunk ++ [.doneStreaming]
  total : t.totalBytesVerifiedPayload =
    (((blocks P.chunkSizeBytes.val f.bytes).take k).map List.length).sum
  errors : t.metrics.errors ≠ [] ↔ k < (blocks P.chunkSizeBytes.val f.bytes).length ∨
    f.bytes.length ≠ P.targetFileSizeBytes
  announced : t.announced = true ↔ k = (blocks P.chunkSizeBytes.val f.bytes).length ∧
    f.bytes.length = P.targetFileSizeBytes

/-- The client of a file that stays unchanged. -/
def params (f : File) (chunkSize : ChunkSize) (target : ℕ) : Params :=
  ⟨target, chunkSize, Disk.ofFile f⟩

namespace Client

variable {f : File} {chunkSize : ChunkSize} {target k : ℕ} {replies : ℕ → List UInt8} {c : Client}

/-- In the loop, after `k` right replies. -/
structure At (f : File) (chunkSize : ChunkSize) (replies : ℕ → List UInt8) (k : ℕ) (c : Client) :
    Prop where
  pc : c.pc = .loop
  reader : c.reader.At f chunkSize k
  chunksSent : c.chunksSent = k
  total : c.totalBytesVerifiedPayload =
    (((blocks chunkSize.val f.bytes).take k).map List.length).sum
  calls : c.calls = .startStreaming :: ((blocks chunkSize.val f.bytes).take k).map .processChunk
  errors : c.metrics.errors = []
  announced : c.announced = false
  le : k ≤ (blocks chunkSize.val f.bytes).length
  right : ∀ i (h : i < (blocks chunkSize.val f.bytes).length), i < k →
    replies i = (blocks chunkSize.val f.bytes)[i].reverse

/-- Out of the loop, after the first wrong reply or the end of the file. -/
structure Left (f : File) (chunkSize : ChunkSize) (replies : ℕ → List UInt8) (k : ℕ) (c : Client) :
    Prop where
  pc : c.pc = .doneStreaming
  first : FirstWrong (blocks chunkSize.val f.bytes) replies k
  total : c.totalBytesVerifiedPayload =
    (((blocks chunkSize.val f.bytes).take k).map List.length).sum
  calls : c.calls = .startStreaming ::
    ((blocks chunkSize.val f.bytes).take (k + 1)).map .processChunk
  errors : c.metrics.errors ≠ [] ↔ k < (blocks chunkSize.val f.bytes).length
  announced : c.announced = false

/-- A reply that is not the reversed chunk is logged and ends the loop. -/
theorem verify_wrong {chunkBuffer response : List UInt8} (h : response ≠ chunkBuffer.reverse) :
    ∃ message, c.verify chunkBuffer response = (c.logError message).leave := by
  unfold verify
  dsimp only
  split
  · exact ⟨_, rfl⟩
  · exact ⟨_, rfl⟩

theorem verify_right {chunkBuffer response : List UInt8} (h : response = chunkBuffer.reverse) :
    c.verify chunkBuffer response = { c with
      totalBytesVerifiedPayload := c.totalBytesVerifiedPayload + chunkBuffer.length
      chunksSent := c.chunksSent + 1 } := by
  simp [verify, h]

/-- A round inside the file sends the next block and verifies the reply. -/
theorem At.round (h : At f chunkSize replies k c)
    (hk : k < (blocks chunkSize.val f.bytes).length) :
    c.round (.answering replies) =
      (({ c with reader := c.reader.nextChunk.2 }.send (blocks chunkSize.val f.bytes)[k]).received
        c.clock.now).verify (blocks chunkSize.val f.bytes)[k] (replies k) := by
  obtain ⟨hread, -⟩ := h.reader.nextChunk hk
  have hne := Blocks.ne_nil_of_mem_blocks chunkSize.pos (List.getElem_mem hk)
  simp only [Client.round, hread, List.isEmpty_iff, hne, false_and, if_false, exchange,
    Env.answering, h.chunksSent]

/-- A right reply leads to the next round. -/
theorem At.round_right (h : At f chunkSize replies k c)
    (hk : k < (blocks chunkSize.val f.bytes).length)
    (hright : replies k = (blocks chunkSize.val f.bytes)[k].reverse) :
    At f chunkSize replies (k + 1) (c.round (.answering replies)) := by
  obtain ⟨-, hat⟩ := h.reader.nextChunk hk
  have htake : (blocks chunkSize.val f.bytes).take (k + 1) =
      (blocks chunkSize.val f.bytes).take k ++ [(blocks chunkSize.val f.bytes)[k]] := by
    rw [List.take_add_one, List.getElem?_eq_getElem hk]
    rfl
  rw [h.round hk, verify_right hright]
  refine ⟨h.pc, hat, congrArg Nat.succ h.chunksSent, ?_, ?_, h.errors, h.announced, hk, ?_⟩
  · rw [htake, List.map_append, List.sum_append, ← h.total]
    simp [send, received, call]
  · rw [htake, List.map_append, ← List.cons_append, ← h.calls]
    rfl
  · intro i hi hik
    rcases Nat.lt_succ_iff_lt_or_eq.mp hik with hlt | rfl
    · exact h.right i hi hlt
    · exact hright

/-- A wrong reply ends the loop. -/
theorem At.round_wrong (h : At f chunkSize replies k c)
    (hk : k < (blocks chunkSize.val f.bytes).length)
    (hwrong : replies k ≠ (blocks chunkSize.val f.bytes)[k].reverse) :
    Left f chunkSize replies k (c.round (.answering replies)) := by
  obtain ⟨message, hverify⟩ := @verify_wrong
    (({ c with reader := c.reader.nextChunk.2 }.send (blocks chunkSize.val f.bytes)[k]).received
        c.clock.now) _ _ hwrong
  rw [h.round hk, hverify]
  refine ⟨rfl, ⟨h.le, h.right, fun _ => hwrong⟩, h.total, ?_, ?_, h.announced⟩
  · rw [List.take_add_one, List.getElem?_eq_getElem hk, List.map_append, ← List.cons_append,
      ← h.calls]
    rfl
  · exact iff_of_true (by simp [leave, logError]) hk

/-- The end of the file ends the loop. -/
theorem At.round_end (h : At f chunkSize replies k c)
    (hk : k = (blocks chunkSize.val f.bytes).length) :
    Left f chunkSize replies k (c.round (.answering replies)) := by
  obtain ⟨hnil, heof⟩ := h.reader.nextChunk_end hk.ge
  have hround : c.round (.answering replies) = { c with reader := c.reader.nextChunk.2 }.leave := by
    simp only [Client.round, hnil, heof, List.isEmpty_nil, and_self, if_true]
  rw [hround]
  refine ⟨rfl, ⟨h.le, h.right, fun hlt => absurd hk hlt.ne⟩, h.total, ?_, ?_, h.announced⟩
  · rw [List.take_of_length_le (by omega), ← List.take_of_length_le hk.ge]
    exact h.calls
  · refine iff_of_false ?_ (by omega)
    simpa [leave] using h.errors

/-! ### Whole runs -/

open StateTransition (Reaches)
open Machine (Halts halts_of_step halts_of_none)

variable {P : Params}

theorem next_of_loop {env : Env} (h : c.pc = .loop) : next P env c = some (c.round env) := by
  simp only [next, h]

/-- After the loop the handler is told, the totals are compared and the metrics saved. -/
theorem Left.finish (h : Left f chunkSize replies k c) :
    ∃ t, Halts (next (params f chunkSize target) (.answering replies)) c t ∧ t.pc = .exited 0 ∧
      t.calls = c.calls ++ [.doneStreaming] ∧
      t.totalBytesVerifiedPayload = c.totalBytesVerifiedPayload ∧
      (t.metrics.errors ≠ [] ↔ c.metrics.errors ≠ [] ∨ c.totalBytesVerifiedPayload ≠ target) ∧
      (t.announced = true ↔ c.totalBytesVerifiedPayload = target) := by
  let d : Client := { c.call .doneStreaming with pc := .finalCheck }
  let e : Client := d.finalCheck (params f chunkSize target)
  have hdone : next (params f chunkSize target) (.answering replies) c = some d := by
    simp only [next, h.pc]
    rfl
  have hcheck : next (params f chunkSize target) (.answering replies) d = some e := rfl
  have hpc : e.pc = .save := by
    simp only [e, finalCheck]
    split <;> rfl
  have hsave : next (params f chunkSize target) (.answering replies) e =
      some { e with pc := .exited 0 } := by
    simp only [next, hpc]
  refine ⟨_, halts_of_step hdone (halts_of_step hcheck (halts_of_step hsave (halts_of_none rfl))),
    rfl, ?_⟩
  by_cases heq : c.totalBytesVerifiedPayload = target
  · have he : e = { d with announced := true, pc := .save } := by
      simp only [e, finalCheck]
      exact if_neg (not_not.mpr heq)
    rw [he]
    exact ⟨rfl, rfl, by simp [d, call, heq], by simp [heq]⟩
  · have he : ∃ message, e = { d.logError message with pc := .save } := by
      simp only [e, finalCheck]
      exact ⟨_, if_pos heq⟩
    obtain ⟨message, he⟩ := he
    rw [he]
    refine ⟨rfl, rfl, iff_of_true (by simp [logError]) (.inr heq), ?_⟩
    simp [logError, d, call, h.announced, heq]

/-- From any round on, the loop ends at the first wrong reply or at the end of the file. -/
theorem At.leaves (n : ℕ) : ∀ {k : ℕ} {c : Client}, At f chunkSize replies k c →
    n + k = (blocks chunkSize.val f.bytes).length →
    ∃ d k', Reaches (next P (.answering replies)) c d ∧ Left f chunkSize replies k' d := by
  induction n with
  | zero =>
    intro k c h hn
    exact ⟨_, k, .single (next_of_loop h.pc), h.round_end (by omega)⟩
  | succ n ih =>
    intro k c h hn
    have hk : k < (blocks chunkSize.val f.bytes).length := by omega
    by_cases hright : replies k = (blocks chunkSize.val f.bytes)[k].reverse
    · obtain ⟨d, k', hreach, hleft⟩ := ih (h.round_right hk hright) (by omega)
      exact ⟨d, k', .head (next_of_loop h.pc) hreach, hleft⟩
    · exact ⟨_, k, .single (next_of_loop h.pc), h.round_wrong hk hright⟩

/-- The file is there, the server is connected and the handler obtained. -/
theorem starts (f : File) (chunkSize : ChunkSize) (target : ℕ) (replies : ℕ → List UInt8)
    (clock : Clock) : ∃ c, Reaches (next (params f chunkSize target) (.answering replies))
      (init (params f chunkSize target) clock) c ∧ At f chunkSize replies 0 c := by
  let c : Client := init (params f chunkSize target) clock
  let d : Client := { c.call .startStreaming with
    overallStartTime := c.clock.now
    clock := c.clock.tick
    pc := .loop }
  have hprepare : next (params f chunkSize target) (.answering replies) c =
      some { c with pc := .connect } := rfl
  have hconnect : next (params f chunkSize target) (.answering replies) { c with pc := .connect } =
      some { c with pc := .startStreaming } := rfl
  have hcall : next (params f chunkSize target) (.answering replies)
      { c with pc := .startStreaming } = some { c.call .startStreaming with pc := .openFile } := rfl
  have hstart : Reaches (next (params f chunkSize target) (.answering replies)) c d :=
    .head hprepare (.head hconnect (.head hcall (.single rfl)))
  exact ⟨d, hstart, rfl, Common.ChunkReader.at_new f chunkSize, rfl, rfl, rfl, rfl, rfl,
    Nat.zero_le _, fun i _ hi => absurd hi (Nat.not_lt_zero i)⟩

/-- What the client has done when it exits. -/
theorem transfer (f : File) (chunkSize : ChunkSize) (target : ℕ) (replies : ℕ → List UInt8)
    (clock : Clock) :
    ∃ t k, Halts (next (params f chunkSize target) (.answering replies))
        (init (params f chunkSize target) clock) t ∧ t.pc = .exited 0 ∧
      FirstWrong (blocks chunkSize.val f.bytes) replies k ∧
      t.calls = .startStreaming ::
        ((blocks chunkSize.val f.bytes).take (k + 1)).map .processChunk ++ [.doneStreaming] ∧
      t.totalBytesVerifiedPayload = min (k * chunkSize.val) f.bytes.length ∧
      (t.metrics.errors ≠ [] ↔ k < (blocks chunkSize.val f.bytes).length ∨
        t.totalBytesVerifiedPayload ≠ target) ∧
      (t.announced = true ↔ t.totalBytesVerifiedPayload = target) := by
  obtain ⟨c, hstart, hat⟩ := starts f chunkSize target replies clock
  obtain ⟨d, k, hloop, hleft⟩ := hat.leaves _ (Nat.add_zero _)
  obtain ⟨t, hhalts, hpc, hcalls, htotal, herrors, hannounced⟩ := @hleft.finish _ _ target
  have ht := Machine.halts_of_reaches (hstart.trans hloop) hhalts
  refine ⟨t, k, ht, hpc, hleft.first, ?_, ?_, ?_, ?_⟩
  · rw [hcalls, hleft.calls]
  · rw [htotal, hleft.total, Blocks.sum_length_take_blocks hleft.first.le]
  · rw [herrors, hleft.errors, htotal]
  · rw [hannounced, htotal]

/-- The first wrong reply comes when as many bytes as were expected have been verified. -/
def MistakenForSuccess (f : File) (chunkSize : ChunkSize) (target : ℕ)
    (replies : ℕ → List UInt8) : Prop :=
  ∃ k, k < (blocks chunkSize.val f.bytes).length ∧
    FirstWrong (blocks chunkSize.val f.bytes) replies k ∧ k * chunkSize.val = target

/-- Bytes of whole chunks before the first wrong reply are fewer than the file has. -/
theorem total_lt {k : ℕ} (hk : k < (blocks chunkSize.val f.bytes).length) :
    min (k * chunkSize.val) f.bytes.length = k * chunkSize.val := by
  rw [Blocks.length_blocks, Blocks.lt_count_iff chunkSize.pos] at hk
  exact min_eq_left hk.le

theorem total_all {k : ℕ} (hk : k = (blocks chunkSize.val f.bytes).length) :
    min (k * chunkSize.val) f.bytes.length = f.bytes.length := by
  rw [Blocks.length_blocks] at hk
  exact min_eq_right ((Blocks.count_le_iff chunkSize.pos).mp hk.ge)

theorem MistakenForSuccess.not_exact {clock : Clock}
    (h : MistakenForSuccess f chunkSize target replies) :
    ¬ ∃ t k, Halts (next (params f chunkSize target) (.answering replies))
        (init (params f chunkSize target) clock) t ∧ t.pc = .exited 0 ∧
      Exact f (params f chunkSize target) replies t k := by
  rintro ⟨t', k', ht', -, hexact⟩
  obtain ⟨j, hj, hwrong, htarget⟩ := h
  obtain ⟨t, k, ht, -, hfirst, -, htotal, -, hannounced⟩ :=
    transfer f chunkSize target replies clock
  cases ht.unique ht'
  cases hexact.first.unique hfirst
  cases hwrong.unique hfirst
  have hall := hexact.announced.mp (hannounced.mpr (by rw [htotal, total_lt hj, htarget]))
  exact hj.ne hall.1

/-- For every file, chunk size, expected size and sequence of replies, the client ends with
status 0, and its calls, its total and what it reports are as they should be, unless the
first wrong reply comes when exactly the expected number of bytes has been verified: then
it announces that all data was verified. -/
theorem transfer_exact_iff (f : File) (chunkSize : ChunkSize) (target : ℕ)
    (replies : ℕ → List UInt8) (clock : Clock) :
    (∃ t k, Halts (next (params f chunkSize target) (.answering replies))
        (init (params f chunkSize target) clock) t ∧ t.pc = .exited 0 ∧
      Exact f (params f chunkSize target) replies t k) ↔
      ¬ MistakenForSuccess f chunkSize target replies := by
  refine ⟨fun h hmistaken => hmistaken.not_exact h, fun hnot => ?_⟩
  obtain ⟨t, k, ht, hpc, hfirst, hcalls, htotal, herrors, hannounced⟩ :=
    transfer f chunkSize target replies clock
  have hsum := Blocks.sum_length_take_blocks hfirst.le
  refine ⟨t, k, ht, hpc, hfirst, hcalls, htotal.trans hsum.symm, ?_, ?_⟩
  · rw [herrors, htotal]
    rcases Nat.eq_or_lt_of_le hfirst.le with heq | hlt
    · rw [total_all heq]
      rfl
    · exact iff_of_true (.inl hlt) (.inl hlt)
  · rw [hannounced, htotal]
    rcases Nat.eq_or_lt_of_le hfirst.le with heq | hlt
    · rw [total_all heq]
      exact ⟨fun h => ⟨heq, h⟩, And.right⟩
    · refine iff_of_false (fun heq => ?_) fun h => hlt.ne h.1
      exact hnot ⟨k, hlt, hfirst, by rwa [total_lt hlt] at heq⟩

/-- A file of two bytes where one was expected, in chunks of one byte; the second reply is
wrong. -/
theorem announces_wrong_reply :
    ¬ ∃ t k, Halts (next (params ⟨[1, 2], by decide⟩ ⟨1, by decide, by decide⟩ 1)
        (.answering fun k => if k = 0 then [1] else [9]))
        (init (params ⟨[1, 2], by decide⟩ ⟨1, by decide, by decide⟩ 1) ⟨fun _ => 0, 0⟩) t ∧
      t.pc = .exited 0 ∧
      Exact ⟨[1, 2], by decide⟩ (params ⟨[1, 2], by decide⟩ ⟨1, by decide, by decide⟩ 1)
        (fun k => if k = 0 then [1] else [9]) t k := by
  apply MistakenForSuccess.not_exact
  refine ⟨1, by decide, ⟨by decide, ?_, ?_⟩, rfl⟩
  · intro i _ hi
    cases Nat.lt_one_iff.mp hi
    rfl
  · intro _
    show ([9] : List UInt8) ≠ [2]
    decide

end Client

end ReversalBench.Capnp
