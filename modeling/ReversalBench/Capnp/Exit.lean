import ReversalBench.Capnp.Transfer

/-! The exit status of the Cap'n Proto client, for all outcomes of connecting and of the
calls. Whatever throws leads to status 1; a wrong reply only ends the loop, and `main` goes
on to return 0. -/

namespace ReversalBench.Capnp

open Blocks (blocks)
open Machine (Halts)

/-- The test file is there, and nothing throws until the loop is entered. -/
structure Env.Starts (env : Env) (target : ℕ) : Prop where
  prepared : env.existingFileSize = some target ∨ env.generateTestFile
  connect : env.connect = .ok ()
  startStreaming : env.startStreaming = .ok ()
  openFile : env.openFile = .ok ()

/-- The first `k` chunks are answered with their reversals. -/
def Env.RightUpTo (env : Env) (chunks : List (List UInt8)) (k : ℕ) : Prop :=
  ∀ i (hi : i < chunks.length), i < k → env.processChunk i = .ok chunks[i].reverse

theorem Env.RightUpTo.succ {env : Env} {chunks : List (List UInt8)} {k : ℕ}
    (h : env.RightUpTo chunks k) (hk : k < chunks.length)
    (hright : env.processChunk k = .ok chunks[k].reverse) :
    env.RightUpTo chunks (k + 1) := by
  intro i hi hik
  rcases Nat.lt_succ_iff_lt_or_eq.mp hik with hlt | rfl
  · exact h i hi hlt
  · exact hright

/-- A reply that is not the reversed chunk comes before anything throws. -/
def Env.AnswersWrong (env : Env) (chunks : List (List UInt8)) : Prop :=
  ∃ k, ∃ hk : k < chunks.length, env.RightUpTo chunks k ∧
    ∃ response, env.processChunk k = .ok response ∧ response ≠ chunks[k].reverse

/-- A call throws after right replies only. -/
def Env.CallThrows (env : Env) (chunks : List (List UInt8)) : Prop :=
  ∃ k < chunks.length, env.RightUpTo chunks k ∧ ∃ e, env.processChunk k = .error e

/-- What makes `main` return 1. -/
def Env.Throws (env : Env) (target : ℕ) (chunks : List (List UInt8)) : Prop :=
  ¬ env.Starts target ∨ env.doneStreaming ≠ .ok () ∨ env.CallThrows chunks

/-- A reply cannot both be wrong and throw. -/
theorem Env.AnswersWrong.not_callThrows {env : Env} {chunks : List (List UInt8)}
    (h : env.AnswersWrong chunks) : ¬ env.CallThrows chunks := by
  rintro ⟨j, hj, hjright, e, hthrow⟩
  obtain ⟨k, hk, hkright, response, hreply, hwrong⟩ := h
  rcases lt_trichotomy j k with hlt | rfl | hgt
  · rw [hkright j hj hlt] at hthrow
    cases hthrow
  · rw [hreply] at hthrow
    cases hthrow
  · rw [hjright k hk hgt] at hreply
    cases hreply
    exact hwrong rfl

/-- Where all replies are right none is wrong and none throws. -/
theorem Env.RightUpTo.all {env : Env} {chunks : List (List UInt8)}
    (h : env.RightUpTo chunks chunks.length) :
    ¬ env.AnswersWrong chunks ∧ ¬ env.CallThrows chunks := by
  constructor
  · rintro ⟨k, hk, -, response, hreply, hwrong⟩
    rw [h k hk hk] at hreply
    cases hreply
    exact hwrong rfl
  · rintro ⟨k, hk, -, e, hthrow⟩
    rw [h k hk hk] at hthrow
    cases hthrow

namespace Client

/-- Every chunk of the file was sent, in order, and answered with its reversal. -/
structure AllVerified (f : File) (chunkSize : ChunkSize) (env : Env) (c : Client) : Prop where
  calls : c.calls = .startStreaming ::
    (blocks chunkSize.val f.bytes).map .processChunk ++ [.doneStreaming]
  replies : env.RightUpTo (blocks chunkSize.val f.bytes) (blocks chunkSize.val f.bytes).length

variable {f : File} {chunkSize : ChunkSize} {target k : ℕ} {env : Env} {c t : Client}

/-- Nothing has been read or called. -/
structure Fresh (f : File) (chunkSize : ChunkSize) (c : Client) : Prop where
  reader : c.reader = .new (Disk.ofFile f) chunkSize
  chunksSent : c.chunksSent = 0
  calls : c.calls = []

/-- In the loop, after `k` right replies. -/
structure Sending (f : File) (chunkSize : ChunkSize) (env : Env) (k : ℕ) (c : Client) : Prop where
  reader : c.reader.At f chunkSize k
  chunksSent : c.chunksSent = k
  calls : c.calls = .startStreaming :: ((blocks chunkSize.val f.bytes).take k).map .processChunk
  le : k ≤ (blocks chunkSize.val f.bytes).length
  replies : env.RightUpTo (blocks chunkSize.val f.bytes) k

/-- Every chunk was sent and answered with its reversal, and the loop is over. -/
structure Sent (f : File) (chunkSize : ChunkSize) (env : Env) (c : Client) : Prop where
  calls : c.calls = .startStreaming :: (blocks chunkSize.val f.bytes).map .processChunk
  replies : env.RightUpTo (blocks chunkSize.val f.bytes) (blocks chunkSize.val f.bytes).length

/-- What holds at each place of `main`. -/
def Inv (f : File) (chunkSize : ChunkSize) (target : ℕ) (env : Env) (c : Client) : Prop :=
  match c.pc with
  | .prepareFile => c.Fresh f chunkSize
  | .connect =>
    c.Fresh f chunkSize ∧ (env.existingFileSize = some target ∨ env.generateTestFile)
  | .startStreaming =>
    c.Fresh f chunkSize ∧ (env.existingFileSize = some target ∨ env.generateTestFile) ∧
      env.connect = .ok ()
  | .openFile =>
    Sending f chunkSize env 0 c ∧
      (env.existingFileSize = some target ∨ env.generateTestFile) ∧ env.connect = .ok () ∧
      env.startStreaming = .ok ()
  | .loop => (∃ k, Sending f chunkSize env k c) ∧ env.Starts target
  | .doneStreaming =>
    (Sent f chunkSize env c ∨ env.AnswersWrong (blocks chunkSize.val f.bytes)) ∧
      env.Starts target
  | .finalCheck | .save | .exited 0 =>
    (AllVerified f chunkSize env c ∨ env.AnswersWrong (blocks chunkSize.val f.bytes)) ∧
      env.Starts target ∧ env.doneStreaming = .ok ()
  | .exited _ => env.Throws target (blocks chunkSize.val f.bytes)

/-- How many steps are left at most. -/
def remaining (f : File) (chunkSize : ChunkSize) (c : Client) : ℕ :=
  match c.pc with
  | .prepareFile => (blocks chunkSize.val f.bytes).length + 8
  | .connect => (blocks chunkSize.val f.bytes).length + 7
  | .startStreaming => (blocks chunkSize.val f.bytes).length + 6
  | .openFile => (blocks chunkSize.val f.bytes).length + 5
  | .loop => (blocks chunkSize.val f.bytes).length - c.chunksSent + 4
  | .doneStreaming => 3
  | .finalCheck => 2
  | .save => 1
  | .exited _ => 0

theorem Sending.zero (h : c.reader.At f chunkSize 0) (hsent : c.chunksSent = 0)
    (hcalls : c.calls = [.startStreaming]) : Sending f chunkSize env 0 c :=
  ⟨h, hsent, hcalls, Nat.zero_le _, fun i _ hi => absurd hi (Nat.not_lt_zero i)⟩

/-- The next step of `main` keeps the invariant and brings it closer to its end. -/
def Advances (f : File) (chunkSize : ChunkSize) (target : ℕ) (env : Env) (c t : Client) : Prop :=
  Inv f chunkSize target env t ∧ remaining f chunkSize t < remaining f chunkSize c

theorem advances_caught {e : Thrown} (hpos : 0 < remaining f chunkSize c)
    (h : env.Throws target (blocks chunkSize.val f.bytes)) (d : Client) :
    Advances f chunkSize target env c (d.caught e) := ⟨h, hpos⟩

/-- A round of the loop finds the end of the file or exchanges the next block. -/
theorem Sending.round_eq (h : Sending f chunkSize env k c) :
    (k = (blocks chunkSize.val f.bytes).length ∧
      c.round env = { c with reader := c.reader.nextChunk.2 }.leave) ∨
    ∃ hk : k < (blocks chunkSize.val f.bytes).length,
      c.reader.nextChunk.1 = (blocks chunkSize.val f.bytes)[k] ∧
      c.reader.nextChunk.2.At f chunkSize (k + 1) ∧
      c.round env = exchange env { c with reader := c.reader.nextChunk.2 }
        (blocks chunkSize.val f.bytes)[k] := by
  rcases Nat.eq_or_lt_of_le h.le with hend | hk
  · obtain ⟨hnil, heof⟩ := h.reader.nextChunk_end hend.ge
    exact .inl ⟨hend, by
      simp only [Client.round, hnil, heof, List.isEmpty_nil, and_self, if_true]⟩
  · obtain ⟨hread, hat⟩ := h.reader.nextChunk hk
    have hne := Blocks.ne_nil_of_mem_blocks chunkSize.pos (List.getElem_mem hk)
    exact .inr ⟨hk, hread, hat, by
      simp only [Client.round, hread, List.isEmpty_iff, hne, false_and, if_false]⟩

/-- A round of the loop. -/
theorem Sending.round (h : Sending f chunkSize env k c) (hpc : c.pc = .loop)
    (hstarts : env.Starts target) : Advances f chunkSize target env c (c.round env) := by
  have hround := h.round_eq
  obtain rfl := h.chunksSent
  have hremaining : remaining f chunkSize c =
      (blocks chunkSize.val f.bytes).length - c.chunksSent + 4 := by
    simp only [remaining, hpc]
  rcases hround with ⟨hend, hround⟩ | ⟨hk, -, hat, hround⟩
  · rw [hround]
    refine ⟨⟨.inl ⟨?_, hend ▸ h.replies⟩, hstarts⟩, ?_⟩
    · show c.calls = _
      rw [h.calls, List.take_of_length_le hend.ge]
    · show 3 < remaining f chunkSize c
      omega
  · rw [hround]
    cases hreply : env.processChunk c.chunksSent with
    | error e =>
      simp only [exchange, hreply]
      exact advances_caught (by omega) (.inr (.inr ⟨_, hk, h.replies, e, hreply⟩)) _
    | ok response =>
      simp only [exchange, hreply]
      by_cases hright : response = (blocks chunkSize.val f.bytes)[c.chunksSent].reverse
      · rw [verify_right hright]
        simp only [Advances, Inv, remaining, send, received, call, hpc]
        have hreplies := h.replies.succ hk (hright ▸ hreply)
        refine ⟨⟨⟨c.chunksSent + 1, hat, rfl, ?_, hk, hreplies⟩, hstarts⟩, ?_⟩
        · show c.calls ++ [_] = _
          rw [h.calls, List.take_add_one, List.getElem?_eq_getElem hk, List.map_append]
          rfl
        · omega
      · obtain ⟨message, hverify⟩ := @verify_wrong
          (({ c with reader := c.reader.nextChunk.2 }.send
            (blocks chunkSize.val f.bytes)[c.chunksSent]).received c.clock.now) _ _ hright
        rw [hverify]
        refine ⟨⟨.inr ⟨_, hk, h.replies, response, hreply, hright⟩, hstarts⟩, ?_⟩
        show 3 < remaining f chunkSize c
        omega

/-- A call that `main` awaits returns, or the program ends with status 1. -/
theorem advances_awaited {outcome : Except Thrown Unit} {pc : Pc} (d : Client)
    (hpos : 0 < remaining f chunkSize c)
    (hthrow : outcome ≠ .ok () → env.Throws target (blocks chunkSize.val f.bytes))
    (hok : outcome = .ok () → Advances f chunkSize target env c { d with pc := pc }) :
    Advances f chunkSize target env c (d.awaited outcome pc) := by
  cases houtcome : outcome with
  | error e =>
    refine advances_caught hpos (hthrow ?_) d
    simp [houtcome]
  | ok => exact hok houtcome

/-- Connecting. -/
theorem Fresh.connect (h : c.Fresh f chunkSize) (hc : c.pc = .connect)
    (hprepared : env.existingFileSize = some target ∨ env.generateTestFile) :
    Advances f chunkSize target env c (c.awaited env.connect .startStreaming) := by
  refine advances_awaited c (by simp [remaining, hc]) ?_ ?_
  · exact fun hfail => .inl fun hstarts => hfail hstarts.connect
  · intro hok
    refine ⟨⟨⟨h.reader, h.chunksSent, h.calls⟩, hprepared, hok⟩, ?_⟩
    simp [remaining, hc]

/-- The call that starts the stream. -/
theorem Fresh.startStreaming (h : c.Fresh f chunkSize) (hc : c.pc = .startStreaming)
    (hprepared : env.existingFileSize = some target ∨ env.generateTestFile)
    (hconnect : env.connect = .ok ()) :
    Advances f chunkSize target env c
      ((c.call .startStreaming).awaited env.startStreaming .openFile) := by
  refine advances_awaited (c.call .startStreaming) (by simp [remaining, hc]) ?_ ?_
  · exact fun hfail => .inl fun hstarts => hfail hstarts.startStreaming
  · intro hok
    refine ⟨⟨Sending.zero ?_ h.chunksSent ?_, hprepared, hconnect, hok⟩, ?_⟩
    · show c.reader.At f chunkSize 0
      rw [h.reader]
      exact Common.ChunkReader.at_new f chunkSize
    · show c.calls ++ [_] = _
      rw [h.calls]
      rfl
    · simp [remaining, hc]

/-- The call that ends the stream. -/
theorem advances_doneStreaming (hc : c.pc = .doneStreaming)
    (hsent : Sent f chunkSize env c ∨ env.AnswersWrong (blocks chunkSize.val f.bytes))
    (hstarts : env.Starts target) :
    Advances f chunkSize target env c
      ((c.call .doneStreaming).awaited env.doneStreaming .finalCheck) := by
  refine advances_awaited (c.call .doneStreaming) (by simp [remaining, hc]) ?_ ?_
  · exact fun hfail => .inr (.inl hfail)
  · intro hok
    refine ⟨⟨hsent.imp_left fun hsent => ⟨?_, hsent.replies⟩, hstarts, hok⟩, ?_⟩
    · show c.calls ++ [_] = _
      rw [hsent.calls]
    · simp [remaining, hc]

/-- The final check does not decide the status. -/
theorem advances_finalCheck (hc : c.pc = .finalCheck)
    (hverified : AllVerified f chunkSize env c ∨
      env.AnswersWrong (blocks chunkSize.val f.bytes))
    (hstarts : env.Starts target) (hdone : env.doneStreaming = .ok ()) :
    Advances f chunkSize target env c (c.finalCheck (params f chunkSize target)) := by
  unfold Client.finalCheck
  split
  · refine ⟨⟨hverified.imp_left fun h => ⟨h.calls, h.replies⟩, hstarts, hdone⟩, ?_⟩
    simp [remaining, hc]
  · refine ⟨⟨hverified.imp_left fun h => ⟨h.calls, h.replies⟩, hstarts, hdone⟩, ?_⟩
    simp [remaining, hc]

/-- `main` goes on until it exits. -/
theorem next_advances (h : Inv f chunkSize target env c)
    (hpc : ∀ status, c.pc ≠ .exited status) :
    ∃ t, next (params f chunkSize target) env c = some t ∧
      Advances f chunkSize target env c t := by
  cases hc : c.pc with
  | prepareFile =>
    simp only [Inv, hc] at h
    by_cases hprepared : env.existingFileSize = some target ∨ env.generateTestFile
    · refine ⟨{ c with pc := .connect }, by simp only [next, hc, params, hprepared, if_true],
        ⟨⟨h.reader, h.chunksSent, h.calls⟩, hprepared⟩, ?_⟩
      simp [remaining, hc]
    · refine ⟨{ c.logError "Failed to generate test file" with pc := .exited 1 },
        by simp only [next, hc, params, hprepared, if_false],
        .inl fun hstarts => hprepared hstarts.prepared, ?_⟩
      simp [remaining, hc]
  | connect =>
    simp only [Inv, hc] at h
    obtain ⟨hfresh, hprepared⟩ := h
    exact ⟨_, by simp only [next, hc], hfresh.connect hc hprepared⟩
  | startStreaming =>
    simp only [Inv, hc] at h
    obtain ⟨hfresh, hprepared, hconnect⟩ := h
    exact ⟨_, by simp only [next, hc], hfresh.startStreaming hc hprepared hconnect⟩
  | openFile =>
    simp only [Inv, hc] at h
    obtain ⟨hsending, hprepared, hconnect, hstart⟩ := h
    cases hopen : env.openFile with
    | error e =>
      refine ⟨c.caught e, by simp only [next, hc, hopen],
        advances_caught (by simp [remaining, hc]) (.inl fun hstarts => ?_) c⟩
      rw [hstarts.openFile] at hopen
      cases hopen
    | ok =>
      refine ⟨{ c with overallStartTime := c.clock.now, clock := c.clock.tick, pc := .loop },
        by simp only [next, hc, hopen],
        ⟨⟨0, Sending.zero hsending.reader hsending.chunksSent hsending.calls⟩,
          hprepared, hconnect, hstart, hopen⟩, ?_⟩
      simp [remaining, hc, hsending.chunksSent]
  | loop =>
    simp only [Inv, hc] at h
    obtain ⟨⟨k, hsending⟩, hstarts⟩ := h
    exact ⟨c.round env, by simp only [next, hc], hsending.round hc hstarts⟩
  | doneStreaming =>
    simp only [Inv, hc] at h
    obtain ⟨hsent, hstarts⟩ := h
    exact ⟨_, by simp only [next, hc], advances_doneStreaming hc hsent hstarts⟩
  | finalCheck =>
    simp only [Inv, hc] at h
    obtain ⟨hverified, hstarts, hdone⟩ := h
    exact ⟨_, by simp only [next, hc], advances_finalCheck hc hverified hstarts hdone⟩
  | save =>
    simp only [Inv, hc] at h
    obtain ⟨hverified, hok⟩ := h
    refine ⟨{ c with pc := .exited 0 }, by simp only [next, hc],
      ⟨hverified.imp_left fun h => ⟨h.calls, h.replies⟩, hok⟩, ?_⟩
    simp [remaining, hc]
  | exited status => exact absurd hc (hpc status)

/-- The program always ends. It ends with status 0 when nothing throws: then every chunk was
verified, or a wrong reply came. It ends with status 1 when something throws. -/
theorem exits (f : File) (chunkSize : ChunkSize) (target : ℕ) (env : Env) (clock : Clock) :
    ∃ t, Halts (next (params f chunkSize target) env)
        (init (params f chunkSize target) clock) t ∧
      ((t.pc = .exited 0 ∧
          (AllVerified f chunkSize env t ∨ env.AnswersWrong (blocks chunkSize.val f.bytes)) ∧
          env.Starts target ∧ env.doneStreaming = .ok ()) ∨
        ∃ status, t.pc = .exited (status + 1) ∧
          env.Throws target (blocks chunkSize.val f.bytes)) := by
  have hinit : Inv f chunkSize target env (init (params f chunkSize target) clock) :=
    ⟨rfl, rfl, rfl⟩
  have hmove : ∀ c, (Inv f chunkSize target env c ∧ ∀ status, c.pc ≠ .exited status) →
      ∃ t, next (params f chunkSize target) env c = some t ∧
        ((Inv f chunkSize target env t ∧ ∀ status, t.pc ≠ .exited status) ∧
            remaining f chunkSize t < remaining f chunkSize c ∨
          ∃ status, t.pc = .exited status ∧ Inv f chunkSize target env t) := by
    rintro c ⟨hc, hpc⟩
    obtain ⟨t, hnext, hinv, hlt⟩ := next_advances hc hpc
    refine ⟨t, hnext, ?_⟩
    cases htpc : t.pc with
    | exited status => exact .inr ⟨status, rfl, hinv⟩
    | _ => exact .inl ⟨⟨hinv, by simp⟩, hlt⟩
  have hstop : ∀ c : Client, (∃ status, c.pc = .exited status ∧ Inv f chunkSize target env c) →
      next (params f chunkSize target) env c = none := by
    rintro c ⟨status, hpc, -⟩
    simp only [next, hpc]
  obtain ⟨t, ht, status, hpc, hinv⟩ :=
    Machine.halts_of_measure (remaining f chunkSize) hmove hstop ⟨hinit, by simp [init]⟩
  refine ⟨t, ht, ?_⟩
  simp only [Inv, hpc] at hinv
  cases status with
  | zero => exact .inl ⟨hpc, hinv⟩
  | succ status => exact .inr ⟨status, hpc, hinv⟩

end Client

end ReversalBench.Capnp
