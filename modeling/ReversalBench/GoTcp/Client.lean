import ReversalBench.Lib.Clock
import ReversalBench.Lib.Machine
import ReversalBench.Lib.StopAndWait
import ReversalBench.GoTcp.Fileutils
import ReversalBench.GoTcp.Metrics
import ReversalBench.GoTcp.Reversal

/-! The Go client (`client/main.go`), from the established connection to the end of its
loop. One round of the loop reads a chunk, sends it, waits for the answer and compares
it with the reversed chunk. What the program prints and saves is left out. -/

namespace ReversalBench.GoTcp

/-- A `net.Conn` of a program that also reads the time and sets deadlines. -/
structure Host (σ : Type*) extends NetConn σ where
  now : σ → ℤ × σ
  setReadDeadline : ℤ → σ → σ
  setWriteDeadline : ℤ → σ → σ

/-- Why the program calls `os.Exit(1)` inside the loop, or stops there. -/
inductive Abort where
  | readFailed (err : GoError)
  | writeFailed (err : GoError)
  | responseFailed (err : GoError)
  | verificationFailed
  | panicked
  deriving DecidableEq

/-- Inside the loop, after it, or aborted. -/
inductive Status where
  | running
  | finished
  | aborted (why : Abort)
  deriving DecidableEq

structure Client (σ : Type*) where
  conn : σ
  chunkReader : ChunkReader
  metricsAggregator : MetricsAggregator
  i : ℕ
  status : Status

namespace Client

variable {σ : Type*} (host : Host σ)

/-- 60 seconds. -/
def timeout : ℤ := 60 * 10 ^ 9

/-- The connection is established: set the deadlines, open the file, start the timer. -/
def start (disk : Disk) (chunkSize : ChunkSize) (conn : σ) : Client σ :=
  let time := host.now conn
  let conn := host.setReadDeadline (time.1 + timeout) time.2
  let time := host.now conn
  let conn := host.setWriteDeadline (time.1 + timeout) time.2
  let time := host.now conn
  { conn := time.2
    chunkReader := .new disk chunkSize
    metricsAggregator := MetricsAggregator.new.startTimer time.1
    i := 0
    status := .running }

def stopTimer (c : Client σ) : Client σ :=
  let time := host.now c.conn
  { c with conn := time.2, metricsAggregator := c.metricsAggregator.stopTimer time.1 }

/-- Leave the program with exit status 1. -/
def abort (c : Client σ) (why : Abort) : Client σ :=
  { c.stopTimer host with status := .aborted why }

/-- Leave the loop. -/
def leave (c : Client σ) : Client σ := { c.stopTimer host with status := .finished }

/-- The rest of a round once a chunk is there. -/
def exchange (c : Client σ) (chunkData : List UInt8) : Client σ :=
  match getReversedBytes chunkData with
  | none => { c with status := .aborted .panicked }
  | some expectedReversedChunk =>
    let rttStart := host.now c.conn
    match writeMessage host.toNetConn rttStart.2 chunkData with
    | (some err, conn) => abort host { c with conn := conn } (.writeFailed err)
    | (none, conn) =>
      match readMessage host.toNetConn conn with
      | (.error err, conn) => abort host { c with conn := conn } (.responseFailed err)
      | (.ok receivedData, conn) =>
        let rttEnd := host.now conn
        let verified := decide (receivedData = expectedReversedChunk)
        let metrics := c.metricsAggregator.recordChunkRTT c.i (rttEnd.1 - rttStart.1)
        let metrics := metrics.recordChunkProcessed chunkData.length
        let metrics := metrics.recordChunkVerified verified
        let c := { c with conn := rttEnd.2, metricsAggregator := metrics }
        if !verified then abort host c .verificationFailed
        else if c.chunkReader.eof ∧ chunkData.length > 0 then leave host c
        else { c with i := c.i + 1 }

/-- An empty chunk at the end of the file ends the loop. -/
def process (c : Client σ) (chunkData : List UInt8) : Client σ :=
  if chunkData.length = 0 ∧ c.chunkReader.eof then
    if c.i = 0 ∧ c.chunkReader.fileSize = 0 then leave host c
    else if c.i > 0 ∧ c.chunkReader.eof then leave host c
    else exchange host c chunkData
  else exchange host c chunkData

/-- One round of the loop. -/
def next (c : Client σ) : Option (Client σ) :=
  match c.status with
  | .finished => none
  | .aborted _ => none
  | .running =>
    let read := c.chunkReader.readNextChunk
    let chunkData := read.1.1
    let c := { c with chunkReader := read.2 }
    match read.1.2 with
    | none => some (process host c chunkData)
    | some .eof =>
      if chunkData.length = 0 then some (leave host c) else some (process host c chunkData)
    | some err => some (abort host c (.readFailed err))

end Client

/-! ### A connection without failures -/

open Tcp (lengthHeader)
open StopAndWait (converse)

/-- The peer's bytes arrive in segments, writes succeed, time passes as it likes and no
deadline expires. -/
def segmentHost : Host (Conn × Clock) where
  read s n := ((segmentConn.read s.1 n).1, ((segmentConn.read s.1 n).2, s.2))
  ne_nil := by
    intro s n l t hn h
    simp only [Prod.mk.injEq] at h
    exact segmentConn.ne_nil hn (Prod.ext h.1 rfl)
  length_le := by
    intro s n l t h
    simp only [Prod.mk.injEq] at h
    exact segmentConn.length_le (Prod.ext h.1 rfl)
  write s bytes := ((segmentConn.write s.1 bytes).1, ((segmentConn.write s.1 bytes).2, s.2))
  now s := (s.2.now, (s.1, s.2.tick))
  setReadDeadline _ s := s
  setWriteDeadline _ s := s

theorem segmentHost_delivers :
    segmentHost.toSource.Delivers (fun s => s.1.incoming.flatten) GoError.eof where
  at_end s n hn h := by
    obtain ⟨conn, hr, hrest⟩ := segmentConn_delivers.at_end s.1 n hn h
    exact ⟨(conn, s.2), by simp [segmentHost, hr], hrest⟩
  inside s n hn h := by
    obtain ⟨l, conn, hr, hrest⟩ := segmentConn_delivers.inside s.1 n hn h
    exact ⟨l, (conn, s.2), by simp [segmentHost, hr], hrest⟩

theorem writeMessage_segmentHost (s : Conn × Clock) (payload : List UInt8) :
    writeMessage segmentHost.toNetConn s payload =
      (none, ({ s.1 with outgoing := s.1.outgoing ++ lengthHeader.frame payload }, s.2)) := by
  have h := writeMessage_segmentConn s.1 payload
  cases payload with
  | nil => simpa [writeMessage, segmentHost, segmentConn] using h
  | cons b bs => simpa [writeMessage, segmentHost, segmentConn] using h

theorem readMessage_segmentHost (s : Conn × Clock) :
    (readMessage segmentHost.toNetConn s).2.1.outgoing = s.1.outgoing :=
  @readMessage_preserves _ segmentHost.toNetConn _ (fun s => s.1.outgoing) (fun _ _ => rfl) s

/-! ### Rounds of the loop -/

namespace Client

variable {f : File} {chunkSize : ChunkSize} {k : ℕ} {c : Client (Conn × Clock)}

/-- A round inside the file exchanges the next block, over any connection. -/
theorem next_block {σ : Type*} (host : Host σ) {c : Client σ} (hrun : c.status = .running)
    (hreader : c.chunkReader.At f chunkSize k)
    (hk : k < (Blocks.blocks chunkSize.val f.bytes).length) :
    ∃ cr, next host c = some (exchange host { c with chunkReader := cr }
        (Blocks.blocks chunkSize.val f.bytes)[k]) ∧
      cr.eof = decide ((Blocks.blocks chunkSize.val f.bytes).length ≤ k + 1) ∧
      (k + 1 < (Blocks.blocks chunkSize.val f.bytes).length → cr.At f chunkSize (k + 1)) := by
  obtain ⟨cr, hread, heof, hmore⟩ := hreader.readNextChunk hk
  have hne := Blocks.ne_nil_of_mem_blocks chunkSize.pos (List.getElem_mem hk)
  have hlen : (Blocks.blocks chunkSize.val f.bytes)[k].length ≠ 0 :=
    fun h0 => hne (List.length_eq_zero_iff.mp h0)
  refine ⟨cr, ?_, heof, hmore⟩
  simp only [Client.next, hrun, hread, process, hlen, false_and, if_false]

/-- An empty file ends the loop in its first round. -/
theorem next_nil {σ : Type*} (host : Host σ) {c : Client σ} (hrun : c.status = .running)
    (hreader : c.chunkReader.At f chunkSize 0) (hf : f.bytes = []) :
    ∃ cr, next host c = some (leave host { c with chunkReader := cr }) := by
  obtain ⟨cr, hread⟩ := hreader.readNextChunk_nil hf
  refine ⟨cr, ?_⟩
  simp only [Client.next, hrun, hread, List.length_nil, if_true]

theorem halts_of_status {σ : Type*} {host : Host σ} {c : Client σ} (h : c.status ≠ .running) :
    Machine.Halts (next host) c c := by
  apply Machine.halts_of_none
  unfold Client.next
  split
  · rfl
  · rfl
  next hrun => exact absurd hrun h

/-- In round `k` of the loop, with the reader after `k` full chunks. -/
structure At (f : File) (chunkSize : ChunkSize) (k : ℕ) (c : Client (Conn × Clock)) : Prop where
  running : c.status = .running
  round : c.i = k
  reader : c.chunkReader.At f chunkSize k

/-- The expected answer comes. -/
theorem exchange_right {chunk r : List UInt8}
    (h : lengthHeader.next (fun _ => true) c.conn.1.incoming.flatten = some (chunk.reverse, r)) :
    ∃ conn metrics,
      exchange segmentHost c chunk =
        (let c := { c with conn := conn, metricsAggregator := metrics }
        if c.chunkReader.eof ∧ chunk.length > 0 then leave segmentHost c
        else { c with i := c.i + 1 }) ∧
      conn.1.incoming.flatten = r ∧
      conn.1.outgoing = c.conn.1.outgoing ++ lengthHeader.frame chunk := by
  let sent : Conn × Clock :=
    ({ c.conn.1 with outgoing := c.conn.1.outgoing ++ lengthHeader.frame chunk }, c.conn.2.tick)
  have hwrite : writeMessage segmentHost.toNetConn (segmentHost.now c.conn).2 chunk =
      (none, sent) := writeMessage_segmentHost _ _
  obtain ⟨conn, hread, hrest⟩ := @readMessage_frame _ segmentHost.toNetConn _ segmentHost_delivers
    sent _ _ h
  have hout := readMessage_segmentHost sent
  rw [hread] at hout
  let rtt := (segmentHost.now conn).1 - (segmentHost.now c.conn).1
  let metrics := ((c.metricsAggregator.recordChunkRTT c.i rtt).recordChunkProcessed
    chunk.length).recordChunkVerified true
  refine ⟨(segmentHost.now conn).2, metrics, ?_, hrest, hout⟩
  simp only [exchange, getReversedBytes_eq, hwrite, hread, decide_true, Bool.not_true,
    Bool.false_eq_true, if_false, metrics, rtt]

/-- Another answer comes, or none: the program is aborted. -/
theorem exchange_wrong {chunk : List UInt8}
    (h : ∀ r, lengthHeader.next (fun _ => true) c.conn.1.incoming.flatten ≠
      some (chunk.reverse, r)) :
    ∃ why, (exchange segmentHost c chunk).status = .aborted why ∧
      (exchange segmentHost c chunk).conn.1.outgoing =
        c.conn.1.outgoing ++ lengthHeader.frame chunk := by
  let sent : Conn × Clock :=
    ({ c.conn.1 with outgoing := c.conn.1.outgoing ++ lengthHeader.frame chunk }, c.conn.2.tick)
  have hwrite : writeMessage segmentHost.toNetConn (segmentHost.now c.conn).2 chunk =
      (none, sent) := writeMessage_segmentHost _ _
  have hout := readMessage_segmentHost sent
  cases hn : lengthHeader.next (fun _ => true) c.conn.1.incoming.flatten with
  | none =>
    obtain ⟨err, conn, hread, -⟩ := @readMessage_stop _ segmentHost.toNetConn _
      segmentHost_delivers sent hn
    rw [hread] at hout
    refine ⟨.responseFailed err, ?_, ?_⟩
    · simp only [exchange, getReversedBytes_eq, hwrite, hread, abort]
    · simp only [exchange, getReversedBytes_eq, hwrite, hread, abort]
      exact hout
  | some pr =>
    obtain ⟨conn, hread, -⟩ := @readMessage_frame _ segmentHost.toNetConn _
      segmentHost_delivers sent pr.1 pr.2 hn
    rw [hread] at hout
    have hne : pr.1 ≠ chunk.reverse := by
      rintro hp
      exact h pr.2 (hn.trans (congrArg (fun p => some (p, pr.2)) hp))
    refine ⟨.verificationFailed, ?_, ?_⟩
    · simp only [exchange, getReversedBytes_eq, hwrite, hread, hne, decide_false, Bool.not_false,
        if_true, abort]
    · simp only [exchange, getReversedBytes_eq, hwrite, hread, hne, decide_false, Bool.not_false,
        if_true, abort]
      exact hout

/-! ### Whole runs -/

/-- The program leaves its loop or is aborted, having sent `verdict.1`. -/
structure Ends (verdict : List (List UInt8) × Bool) (outgoing : List UInt8)
    (t : Client (Conn × Clock)) : Prop where
  outgoing : t.conn.1.outgoing = outgoing ++ lengthHeader.encode verdict.1
  ended : t.status ≠ .running
  finished : t.status = .finished ↔ verdict.2 = true

/-- A round that ends the loop. -/
theorem ends_last {chunk : List UInt8} {cr : ChunkReader} (hchunk : chunk ≠ [])
    (heof : cr.eof = true) :
    Ends (converse lengthHeader (fun _ => true) List.reverse (fun _ => []) [chunk]
      c.conn.1.incoming.flatten) c.conn.1.outgoing
      (exchange segmentHost { c with chunkReader := cr } chunk) := by
  rcases @StopAndWait.converse_cons _ _ lengthHeader (fun _ => true) List.reverse (fun _ => [])
    chunk [] c.conn.1.incoming.flatten with ⟨r, hr, hconv⟩ | ⟨hne, hconv⟩
  · rw [List.append_nil] at hr
    obtain ⟨conn, metrics, hex, -, hout⟩ := @exchange_right { c with chunkReader := cr } chunk r hr
    have hlast : cr.eof = true ∧ chunk.length > 0 := ⟨heof, List.length_pos_of_ne_nil hchunk⟩
    dsimp only at hex
    rw [if_pos hlast] at hex
    rw [hconv, hex]
    refine ⟨hout.trans ?_, by simp [leave], iff_of_true rfl rfl⟩
    exact congrArg (c.conn.1.outgoing ++ ·) (List.append_nil _).symm
  · obtain ⟨why, hstatus, hout⟩ := @exchange_wrong { c with chunkReader := cr } chunk
      (by simpa only [List.append_nil] using hne)
    rw [hconv]
    refine ⟨hout.trans ?_, by simp [hstatus], by simp [hstatus]⟩
    exact congrArg (c.conn.1.outgoing ++ ·) (List.append_nil _).symm

/-- From a round inside the file on, the loop is the stop-and-wait exchange of the blocks
that are still to be sent. -/
theorem run (f : File) (chunkSize : ChunkSize) (n : ℕ) :
    ∀ (k : ℕ) (c : Client (Conn × Clock)), At f chunkSize k c →
      n + 1 + k = (Blocks.blocks chunkSize.val f.bytes).length →
      ∃ t, Machine.Halts (Client.next segmentHost) c t ∧
        Ends (converse lengthHeader (fun _ => true) List.reverse (fun _ => [])
          ((Blocks.blocks chunkSize.val f.bytes).drop k) c.conn.1.incoming.flatten)
          c.conn.1.outgoing t := by
  induction n with
  | zero =>
    intro k c h hn
    have hk : k < (Blocks.blocks chunkSize.val f.bytes).length := by omega
    obtain ⟨cr, hnext, heof, -⟩ := next_block segmentHost h.running h.reader hk
    have hne := Blocks.ne_nil_of_mem_blocks chunkSize.pos (List.getElem_mem hk)
    rw [List.drop_eq_getElem_cons hk, List.drop_eq_nil_of_le (by omega)]
    have hends := @ends_last c _ cr hne (heof.trans (decide_eq_true (by omega)))
    exact ⟨_, Machine.halts_of_step hnext (halts_of_status hends.ended), hends⟩
  | succ n ih =>
    intro k c h hn
    have hk : k < (Blocks.blocks chunkSize.val f.bytes).length := by omega
    obtain ⟨cr, hnext, heof, hmore⟩ := next_block segmentHost h.running h.reader hk
    have heof : cr.eof = false := heof.trans (decide_eq_false (by omega))
    rw [List.drop_eq_getElem_cons hk]
    rcases @StopAndWait.converse_cons _ _ lengthHeader (fun _ => true) List.reverse (fun _ => [])
      (Blocks.blocks chunkSize.val f.bytes)[k] ((Blocks.blocks chunkSize.val f.bytes).drop (k + 1))
      c.conn.1.incoming.flatten with ⟨r, hr, hconv⟩ | ⟨hne, hconv⟩
    · rw [List.append_nil] at hr
      obtain ⟨conn, metrics, hex, hrest, hout⟩ :=
        @exchange_right { c with chunkReader := cr } _ r hr
      simp only [heof, Bool.false_eq_true, false_and, if_false] at hex
      rw [hex] at hnext
      let c' : Client (Conn × Clock) := ⟨conn, cr, metrics, c.i + 1, c.status⟩
      have hround : At f chunkSize (k + 1) c' :=
        ⟨h.running, congrArg Nat.succ h.round, hmore (by omega)⟩
      obtain ⟨t, ht, hends⟩ := ih (k + 1) c' hround (by omega)
      rw [hconv]
      refine ⟨t, Machine.halts_of_step hnext ht, ?_, hends.ended, ?_⟩
      · rw [hends.outgoing, hrest, hout, HeaderCode.encode_cons, List.append_assoc]
      · rw [hends.finished, hrest]
    · obtain ⟨why, hstatus, hout⟩ := @exchange_wrong { c with chunkReader := cr } _
        (by simpa only [List.append_nil] using hne)
      rw [hconv]
      refine ⟨_, Machine.halts_of_step hnext (halts_of_status (by simp [hstatus])),
        hout.trans ?_, by simp [hstatus], by simp [hstatus]⟩
      exact congrArg (c.conn.1.outgoing ++ ·) (List.append_nil _).symm

/-- The client sends the blocks of the file as a stop-and-wait exchange. -/
theorem client_ends (f : File) (chunkSize : ChunkSize) (incoming : List (List UInt8))
    (clock : Clock) :
    ∃ t, Machine.Halts (Client.next segmentHost)
        (start segmentHost (Disk.ofFile f) chunkSize (⟨incoming, []⟩, clock)) t ∧
      Ends (converse lengthHeader (fun _ => true) List.reverse (fun _ => [])
        (Blocks.blocks chunkSize.val f.bytes) incoming.flatten) [] t := by
  have hstart : At f chunkSize 0
      (start segmentHost (Disk.ofFile f) chunkSize (⟨incoming, []⟩, clock)) :=
    ⟨rfl, rfl, ChunkReader.at_new f chunkSize⟩
  by_cases hf : f.bytes = []
  · obtain ⟨cr, hnext⟩ := next_nil segmentHost hstart.running hstart.reader hf
    rw [hf, Blocks.blocks_nil]
    exact ⟨_, Machine.halts_of_step hnext (halts_of_status (by simp [leave])), rfl,
      by simp [leave], iff_of_true rfl rfl⟩
  · have hpos : 0 < (Blocks.blocks chunkSize.val f.bytes).length := by
      rw [Blocks.length_blocks, Blocks.count_pos_iff chunkSize.pos]
      exact List.length_pos_of_ne_nil hf
    obtain ⟨t, ht, hends⟩ := run f chunkSize
      ((Blocks.blocks chunkSize.val f.bytes).length - 1) 0 _ hstart (by omega)
    exact ⟨t, ht, hends⟩

end Client

end ReversalBench.GoTcp
