import ReversalBench.GoTcp.HandlerReader
import ReversalBench.GoTcp.Rounds

/-! The Go client as a program on a connection. The first half of a round is run at once,
the second when the answer has come or the server has closed the connection. -/

namespace ReversalBench.GoTcp

open Tcp (lengthHeader)
open Reader (tokens)

/-- The connection with an input, nothing being written yet. -/
def attach (incoming : List (List UInt8)) (s : Conn × Clock) : Conn × Clock :=
  (⟨incoming, []⟩, s.2)

/-- The connection with another input. -/
def refill (incoming : List (List UInt8)) (s : Conn × Clock) : Conn × Clock :=
  ({ s.1 with incoming := incoming }, s.2)

theorem writeMessage_refill (incoming : List (List UInt8)) (s : Conn × Clock)
    (bytes : List UInt8) :
    writeMessage segmentHost.toNetConn (refill incoming s) bytes =
      ((writeMessage segmentHost.toNetConn s bytes).1,
        refill incoming (writeMessage segmentHost.toNetConn s bytes).2) := by
  rw [writeMessage_segmentHost, writeMessage_segmentHost]
  rfl

namespace Round

theorem send_segmentHost (c : Client (Conn × Clock)) (chunkData : List UInt8) :
    c.send segmentHost chunkData =
      .waiting { c with conn :=
        ({ c.conn.1 with outgoing := c.conn.1.outgoing ++ lengthHeader.frame chunkData },
          c.conn.2.tick) } ⟨chunkData, chunkData.reverse, c.conn.2.now⟩ := by
  have hwrite := writeMessage_segmentHost (segmentHost.now c.conn).2 chunkData
  simp only [Client.send, getReversedBytes_eq, hwrite]
  rfl

def client {σ : Type*} : Round σ → Client σ
  | .between c => c
  | .waiting c _ => c

/-- A client that has left its loop closes the connection. -/
def closes {σ : Type*} (r : Round σ) : Bool := decide (r.client.status ≠ .running)

/-- What was done with the input `l`. -/
def effect (l : List UInt8) (r : Round (Conn × Clock)) :
    Effect (Round (Conn × Clock)) UInt8 × Bool :=
  (⟨r.map (attach []), l.length - r.client.conn.1.incoming.flatten.length,
    r.client.conn.1.outgoing⟩, r.closes)

/-- The first half of a round is run at once, the second when the answer has come. -/
def enough : Round (Conn × Clock) → List UInt8 → Bool
  | .between _, _ => true
  | .waiting _ _, l => wholeMessage l

def proceed : Round (Conn × Clock) → List UInt8 →
    Option (Effect (Round (Conn × Clock)) UInt8 × Bool)
  | .between c, l => ((c.map (attach [l])).begin segmentHost).map (effect l)
  | .waiting c sent, l =>
    some (effect l (.between ((c.map (attach [l])).receive segmentHost sent)))

theorem effect_refill (l : List UInt8) (r : Round (Conn × Clock)) :
    effect l (r.map (refill [l])) =
      (⟨r.map (attach []), 0, r.client.conn.1.outgoing⟩, r.closes) := by
  have hzero : l.length - [l].flatten.length = 0 := by simp
  cases r with
  | between c => exact congrArg (fun k => (Effect.mk _ k _, _)) hzero
  | waiting c sent => exact congrArg (fun k => (Effect.mk _ k _, _)) hzero

/-- The first half of a round does not depend on what has come. -/
theorem proceed_between (c : Client (Conn × Clock)) (l : List UInt8) :
    proceed (.between c) l = ((c.map (attach [])).begin segmentHost).map fun r =>
      (⟨r.map (attach []), 0, r.client.conn.1.outgoing⟩, r.closes) := by
  have hbegin := @Client.begin_map _ segmentHost (refill [l]) (fun _ => rfl)
    (writeMessage_refill [l]) (c.map (attach []))
  have hattach : (c.map (attach [])).map (refill [l]) = c.map (attach [l]) := rfl
  rw [hattach] at hbegin
  rw [proceed, hbegin, Option.map_map]
  exact congrArg (fun g => Option.map g _) (funext (effect_refill l))

/-- The second half depends on the answer alone. -/
theorem proceed_waiting (c : Client (Conn × Clock)) (sent : Outstanding) {l p r : List UInt8}
    (h : lengthHeader.next (fun _ => true) l = some (p, r)) :
    proceed (.waiting c sent) l =
      some (⟨.between ((c.judge segmentHost sent p).map (attach [])), l.length - r.length, []⟩,
        (Round.between (c.judge segmentHost sent p)).closes) := by
  have hflat : lengthHeader.next (fun _ => true) [l].flatten = some (p, r) := by
    rwa [List.flatten_singleton]
  obtain ⟨conn, hread, hrest⟩ := @readMessage_frame _ segmentHost.toNetConn _ segmentHost_delivers
    (⟨[l], []⟩, c.conn.2) p r hflat
  have hout := readMessage_segmentHost (⟨[l], []⟩, c.conn.2)
  have hclock : (readMessage segmentHost.toNetConn ((⟨[l], []⟩, c.conn.2) : Conn × Clock)).2.2 =
      c.conn.2 :=
    @readMessage_preserves _ segmentHost.toNetConn _ (fun s => s.2) (fun _ _ => rfl) _
  rw [hread] at hout hclock
  have hconn : conn = attach conn.1.incoming c.conn := by
    obtain ⟨⟨incoming, outgoing⟩, clock⟩ := conn
    dsimp only at hout hclock
    rw [hout, hclock]
    rfl
  have hjudge := @Client.judge_map _ segmentHost (attach conn.1.incoming)
    (fun _ => rfl) c sent p
  have hreceive : (c.map (attach [l])).receive segmentHost sent =
      (c.judge segmentHost sent p).map (attach conn.1.incoming) := by
    have hread' : readMessage segmentHost.toNetConn (c.map (attach [l])).conn = (.ok p, conn) :=
      hread
    have hmap : ({ c.map (attach [l]) with conn := conn } : Client (Conn × Clock)) =
        c.map (attach conn.1.incoming) :=
      congrArg (fun conn => Client.mk conn c.chunkReader c.metricsAggregator c.i c.status) hconn
    simp only [Client.receive, hread']
    rw [← hjudge, ← hmap]
  rw [proceed, hreceive]
  exact congrArg (fun k => some (Effect.mk _ (l.length - List.length k) _, _)) hrest

/-- The client as a program that reads the stream of its server. -/
def reader : Reader (Round (Conn × Clock)) UInt8 where
  enough := enough
  next := proceed
  consumed_le {s l r} h := by
    cases s with
    | between c =>
      obtain ⟨c, -, rfl⟩ := Option.map_eq_some_iff.mp h
      exact Nat.sub_le _ _
    | waiting c sent =>
      cases h
      exact Nat.sub_le _ _
  eager {s l} h m := by
    cases s with
    | between c => exact ⟨rfl, by rw [proceed_between, proceed_between]⟩
    | waiting c sent =>
      refine ⟨wholeMessage_append h m, ?_⟩
      obtain ⟨p, r, hn⟩ := wholeMessage_iff.mp h
      rw [proceed_waiting c sent hn, proceed_waiting c sent (next_append hn m),
        length_append_sub_append]

/-! ### The chunks of a file -/

variable {f : File} {chunkSize : ChunkSize} {k : ℕ} {c : Client (Conn × Clock)}
  {sent : Outstanding}

/-- What is counted after `k` full chunks. -/
structure Counts (chunkSize : ChunkSize) (k : ℕ) (m : MetricsAggregator) : Prop where
  verifiedOK : m.chunksVerifiedOK = k
  verifiedFail : m.chunksVerifiedFail = 0
  processed : m.totalBytesProcessed = k * chunkSize.val

/-- Before round `k`. -/
structure Ready (f : File) (chunkSize : ChunkSize) (k : ℕ) (c : Client (Conn × Clock)) : Prop
    extends Client.At f chunkSize k c where
  counts : Counts chunkSize k c.metricsAggregator

/-- Chunk number `k` was sent. -/
structure Asking (f : File) (chunkSize : ChunkSize) (k : ℕ) (c : Client (Conn × Clock))
    (sent : Outstanding) : Prop where
  running : c.status = .running
  round : c.i = k
  inside : k < (Blocks.blocks chunkSize.val f.bytes).length
  chunk : sent.chunkData = (Blocks.blocks chunkSize.val f.bytes)[k]
  expected : sent.expectedReversedChunk = sent.chunkData.reverse
  eof : c.chunkReader.eof = decide ((Blocks.blocks chunkSize.val f.bytes).length ≤ k + 1)
  more : k + 1 < (Blocks.blocks chunkSize.val f.bytes).length →
    c.chunkReader.At f chunkSize (k + 1)
  counts : Counts chunkSize k c.metricsAggregator

/-- The loop was left after all chunks of the file were verified. -/
def Succeeded (f : File) (chunkSize : ChunkSize) : Round (Conn × Clock) → Prop
  | .between c => c.status = .finished ∧
      c.metricsAggregator.chunksVerifiedOK = Blocks.count chunkSize.val f.bytes.length ∧
      c.metricsAggregator.chunksVerifiedFail = 0 ∧
      c.metricsAggregator.totalBytesProcessed = f.bytes.length
  | .waiting _ _ => False

/-- The program was aborted before any chunk was verified. -/
def Failed : Round (Conn × Clock) → Prop
  | .between c => (∃ why, c.status = .aborted why) ∧ c.metricsAggregator.chunksVerifiedOK = 0
  | .waiting _ _ => False

/-- A round inside the file sends the next chunk. -/
theorem turn_send (h : Ready f chunkSize k c)
    (hk : k < (Blocks.blocks chunkSize.val f.bytes).length) :
    ∃ c' sent, Asking f chunkSize k c' sent ∧ sent.chunkData =
        (Blocks.blocks chunkSize.val f.bytes)[k] ∧
      reader.endpoint.Turn (.between c) (tokens [] false)
        (tokens (lengthHeader.frame (Blocks.blocks chunkSize.val f.bytes)[k]) false)
        (.waiting c' sent) (tokens [] false) := by
  obtain ⟨cr, hread, heof, hmore⟩ := h.reader.readNextChunk hk
  have hne := Blocks.ne_nil_of_mem_blocks chunkSize.pos (List.getElem_mem hk)
  have hlen : (Blocks.blocks chunkSize.val f.bytes)[k].length ≠ 0 :=
    fun h0 => hne (List.length_eq_zero_iff.mp h0)
  let c' : Client (Conn × Clock) := { c with
    conn := attach [] (c.conn.1, c.conn.2.tick)
    chunkReader := cr }
  let sent : Outstanding := ⟨(Blocks.blocks chunkSize.val f.bytes)[k],
    (Blocks.blocks chunkSize.val f.bytes)[k].reverse, c.conn.2.now⟩
  have hbegin : (c.map (attach [])).begin segmentHost =
      some (Client.send segmentHost { c.map (attach []) with chunkReader := cr }
        (Blocks.blocks chunkSize.val f.bytes)[k]) := by
    have hrun : (c.map (attach [])).status = .running := h.running
    have hreader : (c.map (attach [])).chunkReader.readNextChunk =
        (((Blocks.blocks chunkSize.val f.bytes)[k], none), cr) := hread
    simp only [Client.begin, hrun, hreader, Client.beginProcess, hlen, false_and, if_false]
  have hnext : reader.next (.between c) [] = some (⟨.waiting c' sent, 0,
      lengthHeader.frame (Blocks.blocks chunkSize.val f.bytes)[k]⟩, false) := by
    have hcloses : decide (c.status ≠ .running) = false := by
      rw [h.running]
      rfl
    refine (proceed_between c []).trans ?_
    rw [hbegin, send_segmentHost]
    exact congrArg (fun b => some (_, b)) hcloses
  refine ⟨c', sent, ⟨h.running, h.round, hk, rfl, rfl, heof, hmore, h.counts⟩, rfl, ?_⟩
  exact Reader.turn_single (R := reader) rfl hnext

theorem Asking.chunk_pos (h : Asking f chunkSize k c sent) : 0 < sent.chunkData.length := by
  have hk := h.inside
  rw [h.chunk]
  exact List.length_pos_of_ne_nil (Blocks.ne_nil_of_mem_blocks chunkSize.pos
    (List.getElem_mem hk))

/-- The verdict on the expected answer. -/
theorem judge_right (h : Asking f chunkSize k c sent) :
    ∃ (conn : Conn × Clock) (metrics : MetricsAggregator),
      c.judge segmentHost sent sent.expectedReversedChunk =
        (if (Blocks.blocks chunkSize.val f.bytes).length ≤ k + 1 then
          Client.leave segmentHost { c with conn := conn, metricsAggregator := metrics }
        else { c with conn := conn, metricsAggregator := metrics, i := k + 1 }) ∧
      metrics.chunksVerifiedOK = k + 1 ∧ metrics.chunksVerifiedFail = 0 ∧
      metrics.totalBytesProcessed = k * chunkSize.val + sent.chunkData.length := by
  let metrics := ((c.metricsAggregator.recordChunkRTT c.i
    ((segmentHost.now c.conn).1 - sent.rttStart)).recordChunkProcessed
      sent.chunkData.length).recordChunkVerified true
  refine ⟨(segmentHost.now c.conn).2, metrics, ?_, ?_, h.counts.verifiedFail, ?_⟩
  · simp only [Client.judge, decide_true, Bool.not_true, Bool.false_eq_true, if_false, h.eof,
      decide_eq_true_eq, h.chunk_pos, and_true, metrics, h.round]
  · exact congrArg Nat.succ h.counts.verifiedOK
  · exact congrArg (· + sent.chunkData.length) h.counts.processed

/-- The expected answer is read and judged. -/
theorem next_answer (h : Asking f chunkSize k c sent) (hsize : chunkSize.val < 2 ^ 32) :
    let p := sent.expectedReversedChunk
    reader.enough (.waiting c sent) (lengthHeader.frame p) = true ∧
    reader.next (.waiting c sent) (lengthHeader.frame p) =
      some (⟨.between ((c.judge segmentHost sent p).map (attach [])), (lengthHeader.frame p).length,
        []⟩, (Round.between (c.judge segmentHost sent p)).closes) := by
  intro p
  have hb : p.length < 2 ^ 32 := by
    have hk := h.inside
    have hle := Blocks.length_le_of_mem_blocks (List.getElem_mem hk)
    simp only [p, h.expected, h.chunk, List.length_reverse]
    omega
  have hnext := proceed_waiting c sent (next_whole hb)
  rw [List.length_nil, Nat.sub_zero] at hnext
  exact ⟨wholeMessage_iff.mpr ⟨p, [], next_whole hb⟩, hnext⟩

/-- The last answer makes the client leave its loop. -/
theorem turn_last (h : Asking f chunkSize k c sent) (hsize : chunkSize.val < 2 ^ 32)
    (hk : k + 1 = (Blocks.blocks chunkSize.val f.bytes).length) :
    ∃ r, Succeeded f chunkSize r ∧ reader.endpoint.Turn (.waiting c sent)
      (tokens (lengthHeader.frame sent.expectedReversedChunk) false) (tokens [] true) r
      (tokens [] false) := by
  obtain ⟨henough, hnext⟩ := next_answer h hsize
  obtain ⟨conn, metrics, hjudge, hOK, hFail, hbytes⟩ := judge_right h
  rw [if_pos hk.ge] at hjudge
  have hturn := Reader.turn_single henough hnext
  rw [hjudge, List.drop_length] at hturn
  rw [Blocks.length_blocks] at hk
  have hlen := Blocks.length_getElem_blocks h.inside
  rw [← h.chunk] at hlen
  refine ⟨.between _, ?_, hturn⟩
  refine ⟨rfl, ?_, ?_, ?_⟩
  · exact (MetricsAggregator.stopTimer_chunksVerifiedOK _ _).trans (hOK.trans hk)
  · exact (MetricsAggregator.stopTimer_chunksVerifiedFail _ _).trans hFail
  · refine (MetricsAggregator.stopTimer_totalBytesProcessed _ _).trans (hbytes.trans ?_)
    rw [hlen, Blocks.size_last chunkSize.pos hk]

/-- Every other answer ends the round, and the next chunk is sent. -/
theorem turn_more (h : Asking f chunkSize k c sent) (hsize : chunkSize.val < 2 ^ 32)
    (hk : k + 1 < (Blocks.blocks chunkSize.val f.bytes).length) :
    ∃ c' sent', Asking f chunkSize (k + 1) c' sent' ∧
      sent'.chunkData = (Blocks.blocks chunkSize.val f.bytes)[k + 1] ∧
      reader.endpoint.Turn (.waiting c sent)
        (tokens (lengthHeader.frame sent.expectedReversedChunk) false)
        (tokens (lengthHeader.frame (Blocks.blocks chunkSize.val f.bytes)[k + 1]) false)
        (.waiting c' sent') (tokens [] false) := by
  obtain ⟨henough, hnext⟩ := next_answer h hsize
  obtain ⟨conn, metrics, hjudge, hOK, hFail, hbytes⟩ := judge_right h
  rw [if_neg (not_le.mpr hk)] at hjudge
  let c₁ : Client (Conn × Clock) := { c with
    conn := attach [] conn, metricsAggregator := metrics, i := k + 1 }
  have hlen := Blocks.length_getElem_blocks h.inside
  rw [← h.chunk, Blocks.size_full chunkSize.pos (by rwa [Blocks.length_blocks] at hk)] at hlen
  rw [hlen, ← Nat.succ_mul] at hbytes
  have hready : Ready f chunkSize (k + 1) c₁ := ⟨⟨h.running, rfl, h.more hk⟩, hOK, hFail, hbytes⟩
  obtain ⟨c', sent', hasking, hchunk, hturn⟩ := turn_send hready hk
  refine ⟨c', sent', hasking, hchunk, ?_⟩
  have hcloses : (Round.between ({ c with
      conn := conn, metricsAggregator := metrics, i := k + 1 } : Client (Conn × Clock))).closes =
        false := by
    simp only [closes, client, h.running, ne_eq, not_true_eq_false, decide_false]
  rw [hjudge, hcloses] at hnext
  exact Reader.turn_cons henough hnext List.drop_length hturn rfl

/-- Where the server closes the connection instead of answering, the program is aborted. -/
theorem turn_hangup (h : Asking f chunkSize k c sent) :
    ∃ t l, (∃ why, t.status = .aborted why) ∧ t.metricsAggregator.chunksVerifiedOK = k ∧
      reader.endpoint.Turn (.waiting c sent) (tokens [] true) (tokens [] true) (.between t) l := by
  obtain ⟨err, conn, hread, -⟩ := @readMessage_stop _ segmentHost.toNetConn _
    segmentHost_delivers (⟨[[]], []⟩, c.conn.2) rfl
  have hout := readMessage_segmentHost (⟨[[]], []⟩, c.conn.2)
  rw [hread] at hout
  let t := Client.abort segmentHost { c with conn := conn } (.responseFailed err)
  have hnext : reader.next (.waiting c sent) [] =
      some (⟨.between (t.map (attach [])), 0, []⟩, true) := by
    have hread' : readMessage segmentHost.toNetConn (c.map (attach [[]])).conn =
        (.error err, conn) := hread
    have hreceive : (c.map (attach [[]])).receive segmentHost sent = t := by
      simp only [Client.receive, hread']
      rfl
    have heffect : effect [] (.between t) =
        (⟨.between (t.map (attach [])), 0, t.conn.1.outgoing⟩, true) :=
      congrArg (fun k => (Effect.mk _ k _, true)) (Nat.zero_sub _)
    refine (congrArg (fun c => some (effect [] (.between c))) hreceive).trans ?_
    rw [heffect]
    exact congrArg (fun w => some (Effect.mk _ _ w, true)) hout
  refine ⟨_, _, ⟨_, rfl⟩, ?_, Reader.turn_ended hnext⟩
  exact (MetricsAggregator.stopTimer_chunksVerifiedOK _ _).trans h.counts.verifiedOK

/-- A program that has left its loop takes no further step. -/
theorem stopped {c : Client (Conn × Clock)} (h : c.status ≠ .running)
    (l : List (Option UInt8)) : reader.endpoint.step (.between c) l = none := by
  refine Reader.step_eq_none (fun l => ?_) l
  have hstatus : (c.map (attach [])).status ≠ .running := h
  refine (proceed_between c l).trans ?_
  unfold Client.begin
  split
  · rfl
  · rfl
  next hrun => exact absurd hrun hstatus

theorem Succeeded.stopped {r : Round (Conn × Clock)} (h : Succeeded f chunkSize r)
    (l : List (Option UInt8)) : reader.endpoint.step r l = none := by
  cases r with
  | between c => exact Round.stopped (by simp [h.1]) l
  | waiting c sent => exact absurd h id

theorem Failed.stopped {r : Round (Conn × Clock)} (h : Failed r) (l : List (Option UInt8)) :
    reader.endpoint.step r l = none := by
  cases r with
  | between c =>
    obtain ⟨⟨why, hstatus⟩, -⟩ := h
    exact Round.stopped (by simp [hstatus]) l
  | waiting c sent => exact absurd h id

/-- Chunk by chunk the client goes through the file. -/
theorem asks_from (hsize : chunkSize.val < 2 ^ 32) (n : ℕ) : ∀ (k : ℕ)
    (c : Client (Conn × Clock)) (sent : Outstanding), Asking f chunkSize k c sent →
    n + 1 + k = (Blocks.blocks chunkSize.val f.bytes).length →
    reader.endpoint.Asks (Succeeded f chunkSize) (tokens [] true)
      (((Blocks.blocks chunkSize.val f.bytes).drop (k + 1)).map Tcp.exchange) (.waiting c sent)
      (tokens (lengthHeader.frame sent.expectedReversedChunk) false) := by
  induction n with
  | zero =>
    intro k c sent h hn
    obtain ⟨r, hfin, hturn⟩ := turn_last h hsize (by omega)
    rw [List.drop_eq_nil_of_le (by omega)]
    exact ⟨r, [], hturn, hfin⟩
  | succ n ih =>
    intro k c sent h hn
    have hk : k + 1 < (Blocks.blocks chunkSize.val f.bytes).length := by omega
    obtain ⟨c', sent', hasking, hchunk, hturn⟩ := turn_more h hsize hk
    have hrest := ih (k + 1) c' sent' hasking (by omega)
    rw [hasking.expected, hchunk] at hrest
    rw [List.drop_eq_getElem_cons hk, List.map_cons]
    exact ⟨_, [], hturn, hrest⟩

section Start

variable (clock : Clock)

/-- The program with its connection established. -/
def connected (f : File) (chunkSize : ChunkSize) (clock : Clock) : Round (Conn × Clock) :=
  .between (Client.start segmentHost (Disk.ofFile f) chunkSize (⟨[], []⟩, clock))

theorem ready_connected (f : File) (chunkSize : ChunkSize) :
    Ready f chunkSize 0 (Client.start segmentHost (Disk.ofFile f) chunkSize (⟨[], []⟩, clock)) :=
  ⟨⟨rfl, rfl, ChunkReader.at_new f chunkSize⟩, rfl, rfl, (Nat.zero_mul _).symm⟩

/-- An empty file ends the loop at once. -/
theorem turn_empty (hf : f.bytes = []) :
    ∃ r, Succeeded f chunkSize r ∧ reader.endpoint.Turn (connected f chunkSize clock)
      (tokens [] false) (tokens [] true) r (tokens [] false) := by
  have h := ready_connected clock f chunkSize
  obtain ⟨cr, hread⟩ := h.reader.readNextChunk_nil hf
  let c := Client.start segmentHost (Disk.ofFile f) chunkSize (⟨[], []⟩, clock)
  let t := Client.leave segmentHost { c.map (attach []) with chunkReader := cr }
  have hbegin : (c.map (attach [])).begin segmentHost = some (.between t) := by
    have hrun : (c.map (attach [])).status = .running := h.running
    have hreader : (c.map (attach [])).chunkReader.readNextChunk = (([], some .eof), cr) := hread
    simp only [Client.begin, hrun, hreader, List.length_nil, if_true, t]
  have hnext : reader.next (connected f chunkSize clock) [] =
      some (⟨.between (t.map (attach [])), 0, []⟩, true) := by
    refine (proceed_between c []).trans ?_
    rw [hbegin]
    rfl
  have hcount : Blocks.count chunkSize.val f.bytes.length = 0 := by
    rw [hf, List.length_nil, Blocks.count_zero]
  refine ⟨.between (t.map (attach [])), ?_, Reader.turn_single (R := reader) rfl hnext⟩
  rw [Succeeded, hcount, hf]
  exact ⟨rfl, rfl, rfl, rfl⟩

/-- The client asks for the reversal of every block of the file and is done when all
answers are right. -/
theorem asks (f : File) (hsize : chunkSize.val < 2 ^ 32) :
    reader.endpoint.Asks (Succeeded f chunkSize) (tokens [] true)
      ((Blocks.blocks chunkSize.val f.bytes).map Tcp.exchange) (connected f chunkSize clock)
      (tokens [] false) := by
  by_cases hf : f.bytes = []
  · obtain ⟨r, hfin, hturn⟩ := @turn_empty f chunkSize clock hf
    rw [hf, Blocks.blocks_nil]
    exact ⟨r, [], hturn, hfin⟩
  · have hpos : 0 < (Blocks.blocks chunkSize.val f.bytes).length := by
      rw [Blocks.length_blocks, Blocks.count_pos_iff chunkSize.pos]
      exact List.length_pos_of_ne_nil hf
    obtain ⟨c, sent, hasking, hchunk, hturn⟩ :=
      turn_send (ready_connected clock f chunkSize) hpos
    have hblocks := List.drop_eq_getElem_cons hpos
    have hrest := asks_from hsize ((Blocks.blocks chunkSize.val f.bytes).length - 1) 0 c sent
      hasking (by omega)
    rw [List.drop_zero] at hblocks
    rw [hasking.expected, hchunk] at hrest
    rw [hblocks]
    exact ⟨_, [], hturn, hrest⟩

/-- A client whose first chunk makes the server close the connection is aborted. -/
theorem asks_refused (hpos : 0 < (Blocks.blocks chunkSize.val f.bytes).length) :
    reader.endpoint.Asks Failed (tokens [] true)
      [(tokens (lengthHeader.frame (Blocks.blocks chunkSize.val f.bytes)[0]) false,
        tokens [] true)]
      (connected f chunkSize clock) (tokens [] false) := by
  obtain ⟨c, sent, hasking, -, hturn⟩ := turn_send (ready_connected clock f chunkSize) hpos
  obtain ⟨t, l, hstatus, hverified, hend⟩ := turn_hangup hasking
  exact ⟨_, [], hturn, _, l, hend, hstatus, hverified⟩

end Start

end Round

end ReversalBench.GoTcp
