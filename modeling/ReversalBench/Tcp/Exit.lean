import ReversalBench.Lib.Reads
import ReversalBench.Tcp.Client
import ReversalBench.Tcp.Exchange

/-! The exit status of the C++ TCP client (`tcp_client.cpp`, `main`), for all outcomes of its
asynchronous operations and of its reads. The client stops its `io_context` when it is done,
when something failed and when a read comes short, and after `run` returns `main` returns 0 in
any case; only an exception leads to status 1. -/

namespace ReversalBench.Tcp

open ChunkReader (delivered)

/-- Where `main` is. -/
inductive ProgramPc where
  | running
  | exited (status : ℕ)
  deriving DecidableEq

/-- A running program: its client, what has been written in full, and the bodies of the
answers. -/
structure Program where
  client : TCPClient
  output : List UInt8
  bodies : List (List UInt8)
  pc : ProgramPc

/-- The pending operation completes and hands its handler an error code; an exception
reaches `main`; `io_context::run` returns and the metrics are saved. -/
inductive Event where
  | resolved (ec : ErrorCode)
  | connected (ec : ErrorCode)
  | written (ec : ErrorCode)
  | headerRead (ec : ErrorCode) (buffer : HeaderBuffer)
  | bodyRead (ec : ErrorCode) (lengthRead : ℕ) (buffer : List UInt8)
  | throws
  | returns
  deriving DecidableEq

namespace Program

variable (host : ByteOrder) (chunkSize : ChunkSize)

/-- `main` up to `io_context::run`. The test file is `prepared` if it is there and nothing
was thrown on the way. -/
def main (prepared : Bool) (totalFileSize : ℕ) (disk : Disk) (clock : Clock)
    (headers : HeaderBuffer × HeaderBuffer) : Program where
  client := (TCPClient.new chunkSize disk (.new clock) headers).start
  output := []
  bodies := []
  pc := if prepared ∧ disk.size = totalFileSize then .running else .exited 1

/-- What the client does when its pending operation completes. -/
def handle (c : Program) (e : Event) : Option Program :=
  let s := { c.client with pending := none }
  match c.client.pending, e with
  | some .resolve, .resolved ec => some { c with client := s.onResolve ec }
  | some .connect, .connected ec => some { c with client := s.onConnect host ec }
  | some (.write buffers), .written ec =>
    some { c with
      client := s.onWrite ec
      output := if ec = .success then c.output ++ buffers.flatten else c.output }
  | some .readHeader, .headerRead ec buffer =>
    let s := { s with mReadHeaderBuffer := buffer }
    some { c with client := s.onReadHeader host chunkSize ec }
  | some .readBody, .bodyRead ec lengthRead buffer =>
    if buffer.length = s.mReadBodyBuffer.length then
      let s := { s with mReadBodyBuffer := buffer }
      some { c with
        client := s.onReadBody host ec lengthRead
        bodies := if ec = .success then c.bodies ++ [buffer] else c.bodies }
    else none
  | _, _ => none

/-- One step of `main` from the start of the client on. `io_context::run` returns when it
was stopped or nothing is left to do. -/
def step (c : Program) (e : Event) : Option Program :=
  match c.pc with
  | .exited _ => none
  | .running =>
    match e with
    | .throws => some { c with pc := .exited 1 }
    | .returns =>
      if c.client.ioContextStopped ∨ c.client.pending = none then
        some { c with pc := .exited 0 }
      else none
    | e => if c.client.ioContextStopped then none else c.handle host chunkSize e

/-- Something fails: an operation reports an error, the body that is announced is too long,
what was read is not the reversed chunk. -/
def Fails (c : Program) : Event → Prop
  | .resolved ec | .connected ec | .written ec => ec ≠ .success
  | .headerRead ec buffer =>
    let bodyLength := (parseHeader host buffer).toNat
    ec ≠ .success ∨ bodyLength > chunkSize.val * 2 ∨
      (bodyLength = 0 ∧ c.client.mExpectedReversedChunk ≠ [])
  | .bodyRead ec lengthRead buffer =>
    ec ≠ .success ∨ lengthRead ≠ buffer.length ∨ buffer ≠ c.client.mExpectedReversedChunk
  | .throws | .returns => False

instance (c : Program) : ∀ e, Decidable (c.Fails host chunkSize e)
  | .resolved _ | .connected _ | .written _ => inferInstanceAs (Decidable (_ ≠ _))
  | .headerRead _ _ => inferInstanceAs (Decidable (_ ≠ _ ∨ _ < _ ∨ (_ = _ ∧ _ ≠ _)))
  | .bodyRead _ _ _ => inferInstanceAs (Decidable (_ ≠ _ ∨ _ ≠ _ ∨ _ ≠ _))
  | .throws | .returns => inferInstanceAs (Decidable False)

/-- The chunks that were read were written, in order, and answered by their reversals. -/
structure ChunksVerified (disk : Disk) (c : Program) : Prop where
  output : c.output = lengthHeader.encode (disk.parts chunkSize.val c.client.mChunksSent)
  bodies : c.bodies = (disk.parts chunkSize.val c.client.mChunksSent).map List.reverse
  verifiedBytes : c.client.mMetrics.verifiedBytes =
    disk.offset chunkSize.val c.client.mChunksSent

/-- They are the whole file. -/
structure AllVerified (disk : Disk) (target : ℕ) (c : Program) : Prop
    extends ChunksVerified chunkSize disk c where
  whole : disk.Whole target c.client.mMetrics.verifiedBytes

/-- The client has stopped without a failure: all that was read is verified, and it is the whole
file unless the reads ended early. -/
structure Done (disk : Disk) (c : Program) : Prop extends ChunksVerified chunkSize disk c where
  ioStopped : c.client.ioContextStopped = true
  whole_iff : disk.Whole disk.size c.client.mMetrics.verifiedBytes ↔
    ¬ disk.EndsEarly chunkSize.val disk.size

/-! ### Runs in which nothing fails -/

open TCPClient (Running Ready Awaiting)

/-- Chunk number `k` has been read: it is not empty, and all before it were full. -/
structure HasRead (disk : Disk) (k : ℕ) (s : TCPClient) : Prop
    extends Awaiting disk chunkSize k s where
  full : ∀ i < k, (disk.part chunkSize.val i).length = chunkSize.val
  ne_nil : disk.part chunkSize.val k ≠ []

/-- How far the client has got. -/
inductive Phase (disk : Disk) (c : Program) : Prop where
  | starting (client : Running disk chunkSize 0 c.client)
      (reader : c.client.mChunkReader = .new disk chunkSize)
      (pending : c.client.pending = some .resolve ∨ c.client.pending = some .connect)
      (output : c.output = []) (bodies : c.bodies = [])
  | writing (k : ℕ) (client : HasRead chunkSize disk k c.client)
      (pending : c.client.pending =
        some (.write (prepareMessage host (disk.part chunkSize.val k)).2))
      (output : c.output = lengthHeader.encode (disk.parts chunkSize.val k))
      (bodies : c.bodies = (disk.parts chunkSize.val k).map List.reverse)
  | reading (k : ℕ) (client : HasRead chunkSize disk k c.client)
      (pending : c.client.pending = some .readHeader ∨ c.client.pending = some .readBody)
      (output : c.output = lengthHeader.encode (disk.parts chunkSize.val (k + 1)))
      (bodies : c.bodies = (disk.parts chunkSize.val k).map List.reverse)
  | finished (done : Done chunkSize disk c)

variable {host chunkSize} {disk : Disk} {c t : Program} {e : Event} {k : ℕ} {s : TCPClient}
  {output : List UInt8} {bodies : List (List UInt8)} {pc : ProgramPc}

theorem HasRead.delivered_eq (h : HasRead chunkSize disk k s) :
    delivered disk chunkSize k = disk.part chunkSize.val k :=
  (Disk.part_of_full h.full).symm

theorem HasRead.update (h : HasRead chunkSize disk k s) (op : Option ClientOperation)
    (header : HeaderBuffer) (body : List UInt8) :
    HasRead chunkSize disk k
      { s with pending := op, mReadHeaderBuffer := header, mReadBodyBuffer := body } :=
  ⟨h.toAwaiting.update op header body, h.full, h.ne_nil⟩

/-- The client has stopped after `m` chunks. -/
theorem done_of_finished {m : ℕ}
    (h : TCPClient.Finished disk chunkSize false m (disk.offset chunkSize.val m) s)
    (hout : output = lengthHeader.encode (disk.parts chunkSize.val m))
    (hbodies : bodies = (disk.parts chunkSize.val m).map List.reverse)
    (hwhole : disk.Whole disk.size (disk.offset chunkSize.val m) ↔
      ¬ disk.EndsEarly chunkSize.val disk.size) :
    Done chunkSize disk ⟨s, output, bodies, pc⟩ := by
  obtain rfl := h.sent
  refine ⟨⟨hout, hbodies, h.verified⟩, h.ioStopped, ?_⟩
  rw [h.verified]
  exact hwhole

/-- The next chunk is read and written, or nothing is read any more. -/
theorem phase_sendNextChunk (h : Ready disk chunkSize k s)
    (hfull : ∀ i < k, (disk.part chunkSize.val i).length = chunkSize.val)
    (hk : k < Blocks.count chunkSize.val disk.size)
    (hout : output = lengthHeader.encode (disk.parts chunkSize.val k))
    (hbodies : bodies = (disk.parts chunkSize.val k).map List.reverse) :
    Phase host chunkSize disk ⟨s.sendNextChunk host, output, bodies, pc⟩ := by
  have hpart : delivered disk chunkSize k = disk.part chunkSize.val k :=
    (Disk.part_of_full hfull).symm
  have hoffset := Disk.offset_of_full hfull
  by_cases hempty : disk.part chunkSize.val k = []
  · have hfin := @Ready.sendNextChunk_empty host _ _ _ _ h hk (hpart.trans hempty)
    have hshort : disk.FirstShort chunkSize.val k := ⟨hfull, by
      rw [hempty]
      exact chunkSize.pos⟩
    rw [← hoffset] at hfin
    refine .finished (done_of_finished hfin hout hbodies ?_)
    rw [hshort.endsEarly_iff, Disk.offset_succ, hempty, not_not]
    rfl
  · obtain ⟨hawait, hpending⟩ := @Ready.sendNextChunk_chunk host _ _ _ _ h hk
      (hpart ▸ hempty)
    rw [hpart] at hpending
    exact .writing k ⟨hawait, hfull, hempty⟩ hpending hout hbodies

/-- The answer that was expected leads to the next chunk or to the end. -/
theorem phase_handle (h : HasRead chunkSize disk k s)
    (hbody : s.mReadBodyBuffer = (disk.part chunkSize.val k).reverse)
    (hout : output = lengthHeader.encode (disk.parts chunkSize.val (k + 1)))
    (hbodies : bodies = (disk.parts chunkSize.val (k + 1)).map List.reverse) :
    Phase host chunkSize disk ⟨s.handleReceivedChunkData host, output, bodies, pc⟩ := by
  have hpart := h.delivered_eq
  rw [← hpart] at hbody
  by_cases hmore : k + 1 < Blocks.count chunkSize.val disk.size ∧
      (disk.part chunkSize.val k).length = chunkSize.val
  · obtain ⟨hready, hhandle⟩ := @Awaiting.handle_more host _ _ _ _ h.toAwaiting hbody hmore.1
      (hpart ▸ hmore.2)
    rw [hhandle]
    exact phase_sendNextChunk hready (Disk.full_succ h.full hmore.2) hmore.1 hout hbodies
  · have hle := disk.length_part_le chunkSize.val k
    have hlast : k + 1 ≥ Blocks.count chunkSize.val disk.size ∨
        (delivered disk chunkSize k).length < chunkSize.val := by
      rw [hpart]
      omega
    have hfin := @Awaiting.handle_last host _ _ _ _ h.toAwaiting hbody hlast
    rw [hpart, ← Disk.offset_of_full h.full, ← Disk.offset_succ] at hfin
    refine .finished (done_of_finished hfin hout hbodies ?_)
    rcases Nat.lt_or_ge (disk.part chunkSize.val k).length chunkSize.val with hshort | hge
    · have hfirst : disk.FirstShort chunkSize.val k := ⟨h.full, hshort⟩
      rw [hfirst.endsEarly_iff, not_not]
    · have hfull := Disk.full_succ h.full (le_antisymm hle hge)
      have hsize : disk.size ≤ disk.offset chunkSize.val (k + 1) := by
        rw [Disk.offset_of_full hfull, ← Blocks.count_le_iff chunkSize.pos]
        omega
      have hwhole : disk.Whole disk.size (disk.offset chunkSize.val (k + 1)) := ⟨hsize, hsize⟩
      exact iff_of_true hwhole (Disk.not_endsEarly_of_full hfull hwhole)

theorem phase_main (prepared : Bool) (totalFileSize : ℕ) (disk : Disk) (clock : Clock)
    (headers : HeaderBuffer × HeaderBuffer) :
    Phase host chunkSize disk (main chunkSize prepared totalFileSize disk clock headers) := by
  refine .starting ⟨rfl, rfl, rfl, ?_, rfl, ?_⟩ rfl (.inl rfl) rfl rfl
  · exact TCPClient.totalChunksToSend_new disk (.new clock) headers
  · simp [main, TCPClient.new, TCPClient.start]

/-- Name resolution and connecting. -/
theorem phase_start (hrun : Running disk chunkSize 0 s)
    (hreader : s.mChunkReader = .new disk chunkSize) :
    Phase host chunkSize disk ⟨s.onConnect host .success, [], [], pc⟩ := by
  have hrun : Running disk chunkSize 0 { s with mMetrics := s.mMetrics.startTimer } :=
    ⟨hrun.notStopped, hrun.ioRuns, hrun.sent, hrun.total, hrun.fileSize,
      (MetricsAggregator.verifiedBytes_startTimer _).trans hrun.verified⟩
  have hfull : ∀ i < 0, (disk.part chunkSize.val i).length = chunkSize.val :=
    fun i hi => absurd hi (Nat.not_lt_zero i)
  by_cases hsize : disk.size = 0
  · have hcount : Blocks.count chunkSize.val disk.size ≤ 0 := by simp [hsize]
    have hfin := @Running.sendNextChunk_done host _ _ _ _ hrun hcount
    rw [Nat.zero_mul] at hfin
    have hwhole : disk.Whole disk.size 0 := ⟨hsize.le, hsize.le⟩
    exact .finished (done_of_finished hfin rfl rfl
      (iff_of_true hwhole (Disk.not_endsEarly_of_full hfull hwhole)))
  · have hready : Ready disk chunkSize 0 { s with mMetrics := s.mMetrics.startTimer } :=
      ⟨hrun, hreader ▸ ChunkReader.at_new hsize⟩
    have hpos : 0 < Blocks.count chunkSize.val disk.size := by
      rw [Blocks.count_pos_iff chunkSize.pos]
      exact Nat.pos_of_ne_zero hsize
    exact phase_sendNextChunk hready hfull hpos rfl rfl

/-- The chunk has been written, and the client turns to the header of the answer. -/
theorem phase_written (h : HasRead chunkSize disk k s)
    (hout : output = lengthHeader.encode (disk.parts chunkSize.val k))
    (hbodies : bodies = (disk.parts chunkSize.val k).map List.reverse) :
    Phase host chunkSize disk
      ⟨({ s with pending := none } : TCPClient).onWrite .success,
        output ++ (prepareMessage host (disk.part chunkSize.val k)).2.flatten,
        bodies, pc⟩ := by
  have hnone := (h.update none s.mReadHeaderBuffer s.mReadBodyBuffer).toAwaiting
  rw [hnone.onWrite_success]
  refine .reading k ?_ (.inl rfl) ?_ hbodies
  · exact h.update _ s.mReadHeaderBuffer s.mReadBodyBuffer
  · show output ++ _ = _
    rw [hout, prepareMessage_flatten, Disk.parts_succ, HeaderCode.encode_append,
      HeaderCode.encode_cons, HeaderCode.encode_nil, List.append_nil]

/-- The header announces a body that may be read. -/
theorem phase_headerRead (h : HasRead chunkSize disk k s) {buffer : HeaderBuffer}
    (hle : ¬ (parseHeader host buffer).toNat > chunkSize.val * 2)
    (hpos : (parseHeader host buffer).toNat ≠ 0)
    (hout : output = lengthHeader.encode (disk.parts chunkSize.val (k + 1)))
    (hbodies : bodies = (disk.parts chunkSize.val k).map List.reverse) :
    Phase host chunkSize disk
      ⟨({ s with pending := none, mReadHeaderBuffer := buffer } : TCPClient).onReadHeader host
        chunkSize .success, output, bodies, pc⟩ := by
  have hnone := (h.update none buffer s.mReadBodyBuffer).toAwaiting
  rw [@Awaiting.onReadHeader_body host _ _ _ _ hnone hle hpos]
  exact .reading k (h.update _ _ _) (.inr rfl) hout hbodies

/-- The body has been read and is the reversed chunk. -/
theorem phase_bodyRead (h : HasRead chunkSize disk k s) {buffer : List UInt8}
    (hbody : buffer = (disk.part chunkSize.val k).reverse)
    (hout : output = lengthHeader.encode (disk.parts chunkSize.val (k + 1)))
    (hbodies : bodies = (disk.parts chunkSize.val k).map List.reverse) :
    Phase host chunkSize disk
      ⟨({ s with pending := none, mReadBodyBuffer := buffer } : TCPClient).onReadBody host .success
        buffer.length, output, bodies ++ [buffer], pc⟩ := by
  have hnone := h.update none s.mReadHeaderBuffer buffer
  rw [@Awaiting.onReadBody_full host _ _ _ _ hnone.toAwaiting]
  refine phase_handle hnone hbody hout ?_
  rw [hbodies, hbody, Disk.parts_succ, List.map_append]
  rfl

/-- The handlers of operations that do not fail. -/
theorem phase_handleEvent (h : Phase host chunkSize disk c)
    (hio : c.client.ioContextStopped = false) (he : ¬ c.Fails host chunkSize e)
    (ht : c.handle host chunkSize e = some t) :
    Phase host chunkSize disk t ∧ t.pc = c.pc := by
  cases h with
  | starting hrun hreader hpending hout hbodies =>
    rcases hpending with hpending | hpending
    · cases e with
      | resolved ec =>
        simp only [handle, hpending, Option.some.injEq] at ht
        obtain rfl := not_not.mp he
        subst ht
        exact ⟨.starting (hrun.update _ true) hreader (.inr rfl) hout hbodies, rfl⟩
      | _ => simp [handle, hpending] at ht
    · cases e with
      | connected ec =>
        simp only [handle, hpending, Option.some.injEq] at ht
        obtain rfl := not_not.mp he
        subst ht
        rw [hout, hbodies]
        exact ⟨phase_start (hrun.update none c.client.mSocketOpen) hreader, rfl⟩
      | _ => simp [handle, hpending] at ht
  | writing k hread hpending hout hbodies =>
    cases e with
    | written ec =>
      simp only [handle, hpending, Option.some.injEq] at ht
      obtain rfl := not_not.mp he
      subst ht
      exact ⟨phase_written hread hout hbodies, rfl⟩
    | _ => simp [handle, hpending] at ht
  | reading k hread hpending hout hbodies =>
    have hexpected := hread.expected
    rw [hread.delivered_eq] at hexpected
    rcases hpending with hpending | hpending
    · cases e with
      | headerRead ec buffer =>
        simp only [handle, hpending, Option.some.injEq] at ht
        subst ht
        simp only [Fails, not_or, not_not, hexpected] at he
        obtain ⟨rfl, hle, hzero⟩ := he
        have hpos : (parseHeader host buffer).toNat ≠ 0 :=
          fun h0 => hzero ⟨h0, mt List.reverse_eq_nil_iff.mp hread.ne_nil⟩
        exact ⟨phase_headerRead hread hle hpos hout hbodies, rfl⟩
      | _ => simp [handle, hpending] at ht
    · cases e with
      | bodyRead ec lengthRead buffer =>
        simp only [handle, hpending] at ht
        split at ht
        · cases ht
          simp only [Fails, not_or, not_not, hexpected] at he
          obtain ⟨rfl, rfl, hbody⟩ := he
          exact ⟨phase_bodyRead hread hbody hout hbodies, rfl⟩
        · cases ht
      | _ => simp [handle, hpending] at ht
  | finished hdone =>
    rw [hdone.ioStopped] at hio
    cases hio

/-- What holds of the program as long as nothing fails. -/
structure Inv (host : ByteOrder) (chunkSize : ChunkSize) (disk : Disk) (c : Program) : Prop where
  phase : c.pc = .running → Phase host chunkSize disk c
  exit_zero : c.pc = .exited 0 → Done chunkSize disk c

theorem Inv.exited {status : ℕ} (h : c.pc = .exited (status + 1)) :
    Inv host chunkSize disk c where
  phase := by rw [h]; nofun
  exit_zero := by rw [h]; nofun

theorem inv_main (prepared : Bool) (totalFileSize : ℕ) (disk : Disk) (clock : Clock)
    (headers : HeaderBuffer × HeaderBuffer) :
    Inv host chunkSize disk (main chunkSize prepared totalFileSize disk clock headers) := by
  refine ⟨fun _ => phase_main prepared totalFileSize disk clock headers, fun h => ?_⟩
  simp only [main] at h
  split at h <;> cases h

/-- The client has an operation to wait for until it is finished. -/
theorem Phase.done (h : Phase host chunkSize disk c)
    (hdone : c.client.ioContextStopped ∨ c.client.pending = none) : Done chunkSize disk c := by
  cases h with
  | starting hrun hreader hpending =>
    rcases hdone with hio | hnone
    · rw [hrun.ioRuns] at hio
      cases hio
    · rw [hnone] at hpending
      rcases hpending with hpending | hpending <;> cases hpending
  | writing k hawait hpending =>
    rcases hdone with hio | hnone
    · rw [hawait.ioRuns] at hio
      cases hio
    · rw [hnone] at hpending
      cases hpending
  | reading k hawait hpending =>
    rcases hdone with hio | hnone
    · rw [hawait.ioRuns] at hio
      cases hio
    · rw [hnone] at hpending
      rcases hpending with hpending | hpending <;> cases hpending
  | finished hfinished => exact hfinished

/-- A step in which nothing fails. -/
theorem inv_step (h : Inv host chunkSize disk c) (he : ¬ c.Fails host chunkSize e)
    (ht : c.step host chunkSize e = some t) : Inv host chunkSize disk t := by
  cases hpc : c.pc with
  | exited status => simp [step, hpc] at ht
  | running =>
    have hphase := h.phase hpc
    have hhandle : ∀ (hio : c.client.ioContextStopped = false),
        c.handle host chunkSize e = some t → Inv host chunkSize disk t := by
      intro hio hh
      obtain ⟨hnext, hsame⟩ := phase_handleEvent hphase hio he hh
      refine ⟨fun _ => hnext, fun hexit => ?_⟩
      rw [hsame, hpc] at hexit
      cases hexit
    cases e with
    | throws =>
      simp only [step, hpc, Option.some.injEq] at ht
      subst ht
      exact @Inv.exited host chunkSize disk _ 0 rfl
    | returns =>
      simp only [step, hpc] at ht
      split at ht
      next hdone =>
        cases ht
        have hfinished := hphase.done hdone
        exact ⟨nofun, fun _ => ⟨⟨hfinished.output, hfinished.bodies, hfinished.verifiedBytes⟩,
          hfinished.ioStopped, hfinished.whole_iff⟩⟩
      · cases ht
    | _ =>
      simp only [step, hpc] at ht
      split at ht
      · cases ht
      next hio => exact hhandle (Bool.eq_false_iff.mpr hio) ht

/-! ### Whole runs -/

open Machine (run run_induction Sometime sometime_concat)

variable {prepared : Bool} {totalFileSize : ℕ} {clock : Clock}
  {headers : HeaderBuffer × HeaderBuffer} {es : List Event} {status : ℕ}

/-- Without a failure, status 0 means that everything that was read was verified. -/
theorem exit_zero (ht : run (step host chunkSize) es
      (main chunkSize prepared totalFileSize disk clock headers) = some t)
    (hnot : ¬ Sometime (step host chunkSize) (Fails host chunkSize) es
      (main chunkSize prepared totalFileSize disk clock headers))
    (hpc : t.pc = .exited 0) : Done chunkSize disk t := by
  have hinv : Inv host chunkSize disk t := by
    refine run_induction (P := fun es t => ¬ Sometime (step host chunkSize) (Fails host chunkSize)
      es (main chunkSize prepared totalFileSize disk clock headers) →
        Inv host chunkSize disk t) ?_ ?_ es t ht hnot
    · exact fun _ => inv_main prepared totalFileSize disk clock headers
    · intro es t e u ht ih hu hnot
      rw [sometime_concat ht, not_or] at hnot
      exact inv_step (ih hnot.1) hnot.2 hu
  exact hinv.exit_zero hpc

theorem handle_pc (ht : c.handle host chunkSize e = some t) : t.pc = c.pc := by
  unfold handle at ht
  dsimp only at ht
  split at ht
  any_goals split at ht
  all_goals cases ht
  all_goals rfl

end Program

end ReversalBench.Tcp
