import ReversalBench.Tcp.SessionReader
import ReversalBench.Tcp.Verdict

/-! The C++ client as a program on a connection. As in a session of the server a handler
runs when its operation is finished. While the connection is there and the answers are
the expected ones, the client sends one chunk after the other. -/

namespace ReversalBench.Tcp

open ChunkReader (delivered)
open Reader (tokens)

namespace TCPClient

section Reader

variable (host : ByteOrder) (chunkSize : ChunkSize)

/-- The pending operation can be finished with what has come. -/
def enough (s : TCPClient) (l : List UInt8) : Bool :=
  match s.pending with
  | some .readHeader => decide (headerSize ≤ l.length)
  | some .readBody => decide (s.mReadBodyBuffer.length ≤ l.length)
  | _ => true

/-- The next handler. Stopping the client closes the socket. -/
def proceed (s : TCPClient) (l : List UInt8) : Option (Effect TCPClient UInt8 × Bool) :=
  (Transfer.next host chunkSize (fun _ => []) ⟨s, [l], []⟩).map fun c =>
    (⟨c.client, l.length - c.input.flatten.length, c.output⟩,
      s.mSocketOpen && !c.client.mSocketOpen)

variable {host chunkSize} in
theorem proceed_of_next {s t : TCPClient} {l w : List UInt8} {input : List (List UInt8)} {k : ℕ}
    (h : Transfer.next host chunkSize (fun _ => []) ⟨s, [l], []⟩ = some ⟨t, input, w⟩)
    (hk : l.length - input.flatten.length = k) :
    s.proceed host chunkSize l = some (⟨t, k, w⟩, s.mSocketOpen && !t.mSocketOpen) := by
  simp only [proceed, h, Option.map_some, hk]

theorem proceed_header {s : TCPClient} {l : List UInt8} (hrun : s.ioContextStopped = false)
    (hp : s.pending = some .readHeader) (h : headerSize ≤ l.length) :
    s.proceed host chunkSize l =
      let t := ({ s with pending := none, mReadHeaderBuffer := firstHeader l h } :
        TCPClient).onReadHeader host chunkSize .success
      some (⟨t, headerSize, []⟩, s.mSocketOpen && !t.mSocketOpen) := by
  obtain ⟨input, hr, hrest⟩ := asyncReadHeader_enough s.mReadHeaderBuffer h
  refine proceed_of_next ?_ hrest
  simp only [Transfer.next, hrun, hp, hr]

theorem proceed_body {s : TCPClient} {l : List UInt8} (hrun : s.ioContextStopped = false)
    (hp : s.pending = some .readBody) (h : s.mReadBodyBuffer.length ≤ l.length) :
    s.proceed host chunkSize l =
      let t := ({ s with pending := none, mReadBodyBuffer := l.take s.mReadBodyBuffer.length } :
        TCPClient).onReadBody host .success s.mReadBodyBuffer.length
      some (⟨t, s.mReadBodyBuffer.length, []⟩, s.mSocketOpen && !t.mSocketOpen) := by
  obtain ⟨input, hr, hrest⟩ := asyncRead_enough h
  refine proceed_of_next ?_ hrest
  simp only [Transfer.next, hrun, hp, hr]

/-- The other operations leave the input alone. -/
theorem proceed_other {s : TCPClient} (hh : s.pending ≠ some .readHeader)
    (hb : s.pending ≠ some .readBody) (l m : List UInt8) :
    s.proceed host chunkSize l = s.proceed host chunkSize m := by
  unfold proceed Transfer.next
  cases s.ioContextStopped with
  | true => rfl
  | false =>
    cases hp : s.pending with
    | none => rfl
    | some op =>
      cases op with
      | readHeader => exact absurd hp hh
      | readBody => exact absurd hp hb
      | resolve => simp
      | connect => simp
      | write buffers => simp

/-- The client as a program that reads the stream of its server. -/
def reader : Reader TCPClient UInt8 where
  enough := enough
  next := proceed host chunkSize
  consumed_le {s l r} h := by
    obtain ⟨c, -, rfl⟩ := Option.map_eq_some_iff.mp h
    exact Nat.sub_le _ _
  eager {s l} h m := by
    have hle : l.length ≤ (l ++ m).length := by simp
    cases hrun : s.ioContextStopped with
    | true =>
      have hnone : ∀ l, s.proceed host chunkSize l = none := by
        intro l
        simp only [proceed, Transfer.next, hrun, Option.map_none]
      refine ⟨?_, (hnone _).trans (hnone _).symm⟩
      unfold enough at h ⊢
      split at h
      · exact decide_eq_true ((of_decide_eq_true h).trans hle)
      · exact decide_eq_true ((of_decide_eq_true h).trans hle)
      · rfl
    | false =>
      by_cases hh : s.pending = some .readHeader
      · have hfull : headerSize ≤ l.length := by simpa [enough, hh] using h
        refine ⟨by simp only [enough, hh, decide_eq_true (hfull.trans hle)], ?_⟩
        rw [proceed_header host chunkSize hrun hh hfull,
          proceed_header host chunkSize hrun hh (hfull.trans hle), firstHeader_append hfull]
      · by_cases hb : s.pending = some .readBody
        · have hfull : s.mReadBodyBuffer.length ≤ l.length := by simpa [enough, hb] using h
          refine ⟨by simp only [enough, hb, decide_eq_true (hfull.trans hle)], ?_⟩
          rw [proceed_body host chunkSize hrun hb hfull,
            proceed_body host chunkSize hrun hb (hfull.trans hle)]
          simp only [List.take_append_of_le_length hfull]
        · refine ⟨?_, proceed_other host chunkSize hh hb _ _⟩
          unfold enough
          split
          next hp => exact absurd hp hh
          next hp => exact absurd hp hb
          · rfl

end Reader

variable {host : ByteOrder} {chunkSize : ChunkSize} {f : File} {k : ℕ} {s : TCPClient}

/-- Chunk number `k` was sent and nothing of its answer has been read. -/
structure Asking (f : File) (chunkSize : ChunkSize) (k : ℕ) (s : TCPClient) : Prop
    extends Awaiting (Disk.ofFile f) chunkSize k s where
  pending : s.pending = some .readHeader
  socketOpen : s.mSocketOpen = true

theorem delivered_ne_nil (hk : k < Blocks.count chunkSize.val f.bytes.length) :
    delivered (Disk.ofFile f) chunkSize k ≠ [] :=
  ChunkReader.delivered_ofFile_ne_nil (by rwa [Blocks.length_blocks])

theorem sendNextChunk_socketOpen (h : Ready (Disk.ofFile f) chunkSize k s)
    (hk : k < Blocks.count chunkSize.val f.bytes.length) :
    (s.sendNextChunk host).mSocketOpen = s.mSocketOpen := by
  rw [h.sendNextChunk_eq hk (delivered_ne_nil hk)]

/-- The chunk that was just read is written. -/
theorem turn_write (h : Ready (Disk.ofFile f) chunkSize k s)
    (hk : k < Blocks.count chunkSize.val f.bytes.length) (hopen : s.mSocketOpen = true) :
    ∃ t, Asking f chunkSize k t ∧
      (reader host chunkSize).endpoint.Turn (s.sendNextChunk host) (tokens [] false)
        (tokens (lengthHeader.frame (delivered (Disk.ofFile f) chunkSize k)) false) t
        (tokens [] false) := by
  obtain ⟨hawait, hp⟩ := @Ready.sendNextChunk_chunk host _ _ _ _ h hk (delivered_ne_nil hk)
  have hsocket := (@sendNextChunk_socketOpen host _ _ _ _ h hk).trans hopen
  let t := { s.sendNextChunk host with pending := some ClientOperation.readHeader }
  have henough : (reader host chunkSize).enough (s.sendNextChunk host) [] = true := by
    simp only [reader, enough, hp]
  have hnext : (reader host chunkSize).next (s.sendNextChunk host) [] =
      some (⟨t, 0, lengthHeader.frame (delivered (Disk.ofFile f) chunkSize k)⟩, false) := by
    have hwrite := @Transfer.next_write host chunkSize (fun _ => []) _ _ _ [[]] [] hawait _ hp
    rw [prepareMessage_flatten] at hwrite
    exact (proceed_of_next hwrite rfl).trans (congrArg (fun c => some (_, c)) (Bool.and_not_self _))
  exact ⟨t, ⟨hawait.update _ _ _, rfl, hsocket⟩, Reader.turn_single henough hnext⟩

/-- The expected answer to a chunk is read in two steps and handed over. -/
theorem read_answer (h : Asking f chunkSize k s) (hsize : chunkSize.val < 2 ^ 32) :
    let p := (delivered (Disk.ofFile f) chunkSize k).reverse
    ∃ s₁ u : TCPClient, Awaiting (Disk.ofFile f) chunkSize k u ∧ u.mReadBodyBuffer = p ∧
      u.mSocketOpen = true ∧
      (reader host chunkSize).enough s (lengthHeader.frame p) = true ∧
      (reader host chunkSize).next s (lengthHeader.frame p) =
        some (⟨s₁, headerSize, []⟩, false) ∧
      (reader host chunkSize).enough s₁ p = true ∧
      (reader host chunkSize).next s₁ p =
        some (⟨u.handleReceivedChunkData host, p.length, []⟩,
          !(u.handleReceivedChunkData host).mSocketOpen) := by
  intro p
  have hlen : p.length ≤ chunkSize.val := by
    rw [List.length_reverse]
    exact ChunkReader.length_delivered_le _ _ _
  have hpos : p.length ≠ 0 := by
    rw [List.length_reverse]
    exact (List.length_pos_of_ne_nil (delivered_ne_nil h.more)).ne'
  have hparse := parseHeader_frame host (hlen.trans_lt hsize)
  let header := firstHeader _ (headerSize_le_frame p)
  let body := resize s.mReadBodyBuffer p.length
  have hbody : body.length = p.length := length_resize _ _
  let s₁ : TCPClient := { s with
    mReadHeaderBuffer := header, mReadBodyBuffer := body, pending := some .readBody }
  have h₁ : Awaiting (Disk.ofFile f) chunkSize k s₁ := h.update _ _ _
  refine ⟨s₁, { s with pending := none, mReadHeaderBuffer := header, mReadBodyBuffer := p },
    h.update _ _ _, rfl, h.socketOpen, ?_, ?_, ?_, ?_⟩
  · simp only [reader, enough, h.pending, decide_eq_true (headerSize_le_frame p)]
  · refine (proceed_header host chunkSize h.ioRuns h.pending (headerSize_le_frame p)).trans ?_
    have hon := @Awaiting.onReadHeader_body host _ _ _ _ (h.update none header s.mReadBodyBuffer)
      (by rw [hparse]; omega) (by rwa [hparse])
    rw [hparse] at hon
    dsimp only
    rw [hon]
    exact congrArg (fun c => some (_, c)) (Bool.and_not_self _)
  · exact decide_eq_true hbody.le
  · refine (proceed_body host chunkSize h₁.ioRuns rfl hbody.le).trans ?_
    have htake : p.take s₁.mReadBodyBuffer.length = p := List.take_of_length_le hbody.ge
    have hon := @Awaiting.onReadBody_full host _ _ _ _ (h.update none header p)
    dsimp only at hon ⊢
    rw [htake, hbody, hon]
    exact congrArg (fun b => some (_, b && _)) h.socketOpen

theorem stop_socketOpen (h : s.mOperationsStopped = false) (error : Bool) :
    (s.stopClientOperations error).mSocketOpen = false := by
  simp [stopClientOperations, h]

/-- All chunks of the file were verified. -/
def Succeeded (f : File) (chunkSize : ChunkSize) (s : TCPClient) : Prop :=
  Finished (Disk.ofFile f) chunkSize false (Blocks.count chunkSize.val f.bytes.length)
    f.bytes.length s

/-- The client gave up before any chunk was verified. -/
def Failed (f : File) (chunkSize : ChunkSize) (s : TCPClient) : Prop :=
  Finished (Disk.ofFile f) chunkSize true 0 0 s

theorem stopped {error : Bool} {sent bytes : ℕ}
    (h : Finished (Disk.ofFile f) chunkSize error sent bytes s) (l : List (Option UInt8)) :
    (reader host chunkSize).endpoint.step s l = none := by
  refine Reader.step_eq_none (fun l => ?_) l
  simp only [reader, proceed, Transfer.next, h.ioStopped, Option.map_none]

/-- The last answer makes the client stop with success. -/
theorem turn_last (h : Asking f chunkSize k s) (hsize : chunkSize.val < 2 ^ 32)
    (hk : k + 1 = Blocks.count chunkSize.val f.bytes.length) :
    ∃ t, Succeeded f chunkSize t ∧ (reader host chunkSize).endpoint.Turn s
      (tokens (lengthHeader.frame (delivered (Disk.ofFile f) chunkSize k).reverse) false)
      (tokens [] true) t (tokens [] false) := by
  obtain ⟨s₁, u, hawait, hbody, hopen, henough, hnext, henough₁, hnext₁⟩ :=
    @read_answer host _ _ _ _ h hsize
  have hlast : k + 1 ≥ Blocks.count chunkSize.val (Disk.ofFile f).size ∨
      (delivered (Disk.ofFile f) chunkSize k).length < chunkSize.val := .inl hk.ge
  have hfin := @Awaiting.handle_last host _ _ _ _ hawait hbody hlast
  have hright := @Awaiting.handle_right host _ _ _ _ hawait hbody
  have hclosed : (u.handleReceivedChunkData host).mSocketOpen = false := by
    rw [hright, if_pos hlast]
    exact stop_socketOpen (s := u.verifiedNext) hawait.notStopped false
  rw [hk, ChunkReader.delivered_last (by rwa [Blocks.length_blocks])] at hfin
  rw [hclosed] at hnext₁
  refine ⟨_, hfin, Reader.turn_cons henough hnext (drop_frame _) ?_ rfl⟩
  have hturn := Reader.turn_single henough₁ hnext₁
  rwa [List.drop_length] at hturn

/-- Every other answer makes the client send the next chunk. -/
theorem turn_more (h : Asking f chunkSize k s) (hsize : chunkSize.val < 2 ^ 32)
    (hk : k + 1 < Blocks.count chunkSize.val f.bytes.length) :
    ∃ t, Asking f chunkSize (k + 1) t ∧ (reader host chunkSize).endpoint.Turn s
      (tokens (lengthHeader.frame (delivered (Disk.ofFile f) chunkSize k).reverse) false)
      (tokens (lengthHeader.frame (delivered (Disk.ofFile f) chunkSize (k + 1))) false) t
      (tokens [] false) := by
  obtain ⟨s₁, u, hawait, hbody, hopen, henough, hnext, henough₁, hnext₁⟩ :=
    @read_answer host _ _ _ _ h hsize
  have hfull := @ChunkReader.delivered_full chunkSize k f (by rwa [Blocks.length_blocks])
  obtain ⟨hready, hhandle⟩ := @Awaiting.handle_more host _ _ _ _ hawait hbody hk hfull
  have hopen' : u.verifiedNext.mSocketOpen = true := hopen
  rw [hhandle, sendNextChunk_socketOpen hready hk, hopen'] at hnext₁
  obtain ⟨t, hasking, hwrite⟩ := @turn_write host _ _ _ _ hready hk hopen
  refine ⟨t, hasking, Reader.turn_cons henough hnext (drop_frame _) ?_ rfl⟩
  exact Reader.turn_cons henough₁ hnext₁ List.drop_length hwrite rfl

/-- Where the server closes the connection instead of answering, the client stops with an
error, the end of the stream being left in the input. -/
theorem turn_hangup (h : Asking f chunkSize k s) :
    ∃ t l, Finished (Disk.ofFile f) chunkSize true k (k * chunkSize.val) t ∧
      (reader host chunkSize).endpoint.Turn s (tokens [] true) (tokens [] true) t l := by
  obtain ⟨n, header, input, hr, hrest⟩ := @asyncReadHeader_short s.mReadHeaderBuffer [[]] rfl
  have heof : ErrorCode.eof ≠ .success := by decide
  have hawait := h.update none header s.mReadBodyBuffer
  have hstop := @Awaiting.onReadHeader_error host _ _ _ _ hawait _ heof
  have hnext : Transfer.next host chunkSize (fun _ => []) ⟨s, [[]], []⟩ =
      some ⟨({ s with pending := none, mReadHeaderBuffer := header } :
        TCPClient).stopClientOperations true, input, []⟩ := by
    rw [Transfer.next_onReadHeader h.toAwaiting h.pending, hr]
    exact congrArg (fun client => some (Transfer.mk client input [])) hstop
  have hclosed := @stop_socketOpen { s with pending := none, mReadHeaderBuffer := header }
    h.notStopped true
  have hcloses : (s.mSocketOpen && !(({ s with pending := none, mReadHeaderBuffer := header } :
      TCPClient).stopClientOperations true).mSocketOpen) = true := by
    rw [hclosed, Bool.not_false, Bool.and_true, h.socketOpen]
  have hproceed := (proceed_of_next hnext (Nat.zero_sub _)).trans
    (congrArg (fun c => some (_, c)) hcloses)
  exact ⟨_, _, hawait.toRunning.stop true,
    Reader.turn_ended (R := reader host chunkSize) hproceed⟩

theorem drop_blocks (hk : k < Blocks.count chunkSize.val f.bytes.length) :
    (Blocks.blocks chunkSize.val f.bytes).drop k =
      delivered (Disk.ofFile f) chunkSize k ::
        (Blocks.blocks chunkSize.val f.bytes).drop (k + 1) := by
  have hk' : k < (Blocks.blocks chunkSize.val f.bytes).length := by rwa [Blocks.length_blocks]
  rw [List.drop_eq_getElem_cons hk', ChunkReader.delivered_ofFile hk']

/-- Chunk by chunk the client goes through the file. -/
theorem asks_from (hsize : chunkSize.val < 2 ^ 32) (n : ℕ) : ∀ (k : ℕ) (s : TCPClient),
    Asking f chunkSize k s → n + 1 + k = Blocks.count chunkSize.val f.bytes.length →
    (reader host chunkSize).endpoint.Asks (Succeeded f chunkSize) (tokens [] true)
      (((Blocks.blocks chunkSize.val f.bytes).drop (k + 1)).map exchange) s
      (exchange (delivered (Disk.ofFile f) chunkSize k)).2 := by
  induction n with
  | zero =>
    intro k s h hn
    obtain ⟨t, hfin, hturn⟩ := @turn_last host _ _ _ _ h hsize (by omega)
    rw [List.drop_eq_nil_of_le (by rw [Blocks.length_blocks]; omega)]
    exact ⟨t, [], hturn, hfin⟩
  | succ n ih =>
    intro k s h hn
    obtain ⟨t, hasking, hturn⟩ := @turn_more host _ _ _ _ h hsize (by omega)
    rw [drop_blocks (by omega), List.map_cons]
    exact ⟨t, [], hturn, ih (k + 1) t hasking (by omega)⟩

section Start

variable (host) (clock : Clock) (headers : HeaderBuffer × HeaderBuffer)

/-- The client that has resolved the name and connected. -/
def connected (f : File) (chunkSize : ChunkSize) : TCPClient :=
  { TCPClient.new chunkSize (Disk.ofFile f) (.new clock) headers with
    mSocketOpen := true
    mMetrics := (MetricsAggregator.new clock).startTimer }

theorem running_connected :
    Running (Disk.ofFile f) chunkSize 0 (connected clock headers f chunkSize) := by
  have htotal : (connected clock headers f chunkSize).mTotalChunksToSend =
      Blocks.count chunkSize.val (Disk.ofFile f).size :=
    totalChunksToSend_new (Disk.ofFile f) (.new clock) headers
  exact ⟨rfl, rfl, rfl, htotal, rfl, by simp [connected]⟩

/-- The handlers of name resolution and connecting. -/
theorem steps_connect : ∃ s₁ : TCPClient,
    (reader host chunkSize).enough
      (TCPClient.new chunkSize (Disk.ofFile f) (.new clock) headers).start [] = true ∧
    (reader host chunkSize).next
      (TCPClient.new chunkSize (Disk.ofFile f) (.new clock) headers).start [] =
        some (⟨s₁, 0, []⟩, false) ∧
    (reader host chunkSize).enough s₁ [] = true ∧
    (reader host chunkSize).next s₁ [] =
      some (⟨(connected clock headers f chunkSize).sendNextChunk host, 0, []⟩,
        !((connected clock headers f chunkSize).sendNextChunk host).mSocketOpen) :=
  ⟨_, rfl, rfl, rfl, rfl⟩

/-- The first chunk is sent. -/
theorem turn_first (hf : f.bytes ≠ []) :
    ∃ t, Asking f chunkSize 0 t ∧ (reader host chunkSize).endpoint.Turn
      (TCPClient.new chunkSize (Disk.ofFile f) (.new clock) headers).start (tokens [] false)
      (tokens (lengthHeader.frame (delivered (Disk.ofFile f) chunkSize 0)) false) t
      (tokens [] false) := by
  obtain ⟨s₁, henough, hnext, henough₁, hnext₁⟩ :=
    @steps_connect host chunkSize f clock headers
  have hsize : (Disk.ofFile f).size ≠ 0 := fun h0 => hf (List.length_eq_zero_iff.mp h0)
  have hready : Ready (Disk.ofFile f) chunkSize 0 (connected clock headers f chunkSize) :=
    ⟨running_connected clock headers, ChunkReader.at_new hsize⟩
  have hpos : 0 < Blocks.count chunkSize.val f.bytes.length :=
    (Blocks.count_pos_iff chunkSize.pos).mpr (List.length_pos_of_ne_nil hf)
  obtain ⟨t, hasking, hwrite⟩ := @turn_write host _ _ _ _ hready hpos rfl
  rw [sendNextChunk_socketOpen hready hpos] at hnext₁
  exact ⟨t, hasking, Reader.turn_cons henough hnext rfl
    (Reader.turn_cons henough₁ hnext₁ rfl hwrite rfl) rfl⟩

/-- The client asks for the reversal of every block of the file and is done when all
answers are right. -/
theorem asks (f : File) (hsize : chunkSize.val < 2 ^ 32) :
    (reader host chunkSize).endpoint.Asks (Succeeded f chunkSize) (tokens [] true)
      ((Blocks.blocks chunkSize.val f.bytes).map exchange)
      (TCPClient.new chunkSize (Disk.ofFile f) (.new clock) headers).start (tokens [] false) := by
  by_cases hf : f.bytes = []
  · obtain ⟨s₁, henough, hnext, henough₁, hnext₁⟩ :=
      @steps_connect host chunkSize f clock headers
    have hrun := @running_connected chunkSize f clock headers
    have hcount : Blocks.count chunkSize.val f.bytes.length = 0 := by
      rw [hf, List.length_nil, Blocks.count_zero]
    have hstop := @Running.sendNextChunk_stop host _ _ _ _ hrun hcount.le
    have hfin := hrun.stop false
    rw [Nat.zero_mul] at hfin
    rw [hstop, stop_socketOpen hrun.notStopped] at hnext₁
    rw [hf, Blocks.blocks_nil]
    refine ⟨_, _, Reader.turn_cons henough hnext rfl (Reader.turn_single henough₁ hnext₁) rfl, ?_⟩
    rw [Succeeded, hcount, hf]
    exact hfin
  · have hpos : 0 < Blocks.count chunkSize.val f.bytes.length :=
      (Blocks.count_pos_iff chunkSize.pos).mpr (List.length_pos_of_ne_nil hf)
    obtain ⟨t, hasking, hturn⟩ := @turn_first host chunkSize f clock headers hf
    have hblocks := @drop_blocks chunkSize f 0 hpos
    rw [List.drop_zero] at hblocks
    rw [hblocks]
    exact ⟨t, [], hturn, asks_from hsize (Blocks.count chunkSize.val f.bytes.length - 1) 0 t hasking
      (by omega)⟩

/-- A client whose first chunk makes the server close the connection gives up. -/
theorem asks_refused (hf : f.bytes ≠ []) :
    (reader host chunkSize).endpoint.Asks (Failed f chunkSize) (tokens [] true)
      [(tokens (lengthHeader.frame (delivered (Disk.ofFile f) chunkSize 0)) false,
        tokens [] true)]
      (TCPClient.new chunkSize (Disk.ofFile f) (.new clock) headers).start (tokens [] false) := by
  obtain ⟨t, hasking, hturn⟩ := @turn_first host chunkSize f clock headers hf
  obtain ⟨u, l, hfin, hend⟩ := @turn_hangup host _ _ _ _ hasking
  rw [Nat.zero_mul] at hfin
  exact ⟨t, [], hturn, u, l, hend, hfin⟩

end Start

end TCPClient

end ReversalBench.Tcp
