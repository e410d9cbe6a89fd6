import ReversalBench.GoTcp.Exit

/-! The deadlines of the Go client. They are absolute instants, set once before the loop; an
operation on the connection fails if it would end later. The client runs against a server
that reverses every message it has received completely, while each operation takes its
time. -/

namespace ReversalBench.GoTcp

open Tcp (lengthHeader)

/-- The time in nanoseconds that each write to the connection and each read from it takes. A
message is written in two writes and read in two reads, its header and its body. -/
structure Latencies where
  write : ℕ → ℕ
  read : ℕ → ℕ

namespace Latencies

variable (lat : Latencies)

/-- The time that `WriteMessage` takes in round `k`. -/
def writeMessage (k : ℕ) : ℕ := lat.write (2 * k) + lat.write (2 * k + 1)

/-- The time that `ReadMessage` takes in round `k`. -/
def readMessage (k : ℕ) : ℕ := lat.read (2 * k) + lat.read (2 * k + 1)

/-- The time that the first `n` rounds take together. -/
def elapsed : ℕ → ℕ
  | 0 => 0
  | n + 1 => elapsed n + (lat.writeMessage n + lat.readMessage n)

theorem elapsed_mono {m n : ℕ} (h : m ≤ n) : lat.elapsed m ≤ lat.elapsed n := by
  induction h with
  | refl => exact le_rfl
  | step _ ih => exact ih.trans (Nat.le_add_right _ _)

end Latencies

/-- The time, the deadlines, the bytes written so far, how many bytes of the answers have been
read, and the number of operations so far. -/
structure TimedConn where
  now : ℕ
  readDeadline : Option ℤ
  writeDeadline : Option ℤ
  outgoing : List UInt8
  consumed : ℕ
  writes : ℕ
  reads : ℕ

namespace TimedConn

/-- What a server that reverses every complete message has answered to the bytes written. -/
def answers (outgoing : List UInt8) : List UInt8 :=
  lengthHeader.encode ((lengthHeader.parse (fun _ => true) outgoing).1.map List.reverse)

/-- The answers that have not been read. -/
def unread (s : TimedConn) : List UInt8 := (answers s.outgoing).drop s.consumed

/-- An operation that ends at `instant` misses the deadline. -/
def missed (deadline : Option ℤ) (instant : ℕ) : Bool :=
  match deadline with
  | none => false
  | some d => decide (d < instant)

/-- When an operation that is not done by its deadline ends: then, or at once if the deadline
has passed. -/
def expiry (deadline : Option ℤ) (now : ℕ) : ℕ :=
  match deadline with
  | none => now
  | some d => max now d.toNat

end TimedConn

/-- `os.ErrDeadlineExceeded`. -/
def deadlineExceeded : GoError := .other "i/o timeout"

variable (lat : Latencies)

open TimedConn (missed unread expiry)

/-- The connection to such a server. A read that finds nothing to read waits for its
deadline. -/
def timedHost : Host TimedConn where
  read s n :=
    let instant := s.now + lat.read s.reads
    let t := { s with reads := s.reads + 1 }
    if missed s.readDeadline instant || (unread s).isEmpty then
      (.error deadlineExceeded, { t with now := expiry s.readDeadline s.now })
    else
      let received := (unread s).take n
      (.ok received, { t with now := instant, consumed := s.consumed + received.length })
  ne_nil := by
    intro s n l t hn h
    dsimp only at h
    split at h
    · cases h
    next hgo =>
      cases h
      simp only [Bool.or_eq_true, List.isEmpty_iff, not_or] at hgo
      simp [hgo.2, hn.ne']
  length_le := by
    intro s n l t h
    dsimp only at h
    split at h
    · cases h
    · cases h
      exact List.length_take_le n _
  write s bytes :=
    let instant := s.now + lat.write s.writes
    let t := { s with writes := s.writes + 1 }
    if missed s.writeDeadline instant then
      (some deadlineExceeded, { t with now := expiry s.writeDeadline s.now })
    else (none, { t with now := instant, outgoing := s.outgoing ++ bytes })
  now s := (s.now, s)
  setReadDeadline d s := { s with readDeadline := some d }
  setWriteDeadline d s := { s with writeDeadline := some d }

/-! ### Single operations -/

variable {lat} {s : TimedConn} {d : ℤ}

theorem timed_now (s : TimedConn) : (timedHost lat).now s = (↑s.now, s) := rfl

theorem timed_write (hd : s.writeDeadline = some d) (h : s.now + lat.write s.writes ≤ d)
    (bytes : List UInt8) :
    (timedHost lat).write s bytes = (none, { s with
      now := s.now + lat.write s.writes
      writes := s.writes + 1
      outgoing := s.outgoing ++ bytes }) := by
  have hin : ¬ d < ↑(s.now + lat.write s.writes) := by push_cast; omega
  simp only [timedHost, missed, hd, hin, decide_false, Bool.false_eq_true, if_false]

theorem timed_write_late (hd : s.writeDeadline = some d) (h : d < s.now + lat.write s.writes)
    (bytes : List UInt8) :
    ∃ t, (timedHost lat).write s bytes = (some deadlineExceeded, t) := by
  have hlate : d < ↑(s.now + lat.write s.writes) := by push_cast; omega
  refine ⟨((timedHost lat).write s bytes).2, Prod.ext ?_ rfl⟩
  simp only [timedHost, missed, hd, hlate, decide_true, if_true]

theorem timed_read (hd : s.readDeadline = some d) (h : s.now + lat.read s.reads ≤ d) {n : ℕ}
    (hn : 0 < n) (hle : n ≤ (unread s).length) :
    (timedHost lat).read s n = (.ok ((unread s).take n), { s with
      now := s.now + lat.read s.reads
      reads := s.reads + 1
      consumed := s.consumed + n }) := by
  have hin : ¬ d < ↑(s.now + lat.read s.reads) := by push_cast; omega
  have hne : (unread s).isEmpty = false := by
    rw [List.isEmpty_eq_false_iff]
    exact List.ne_nil_of_length_pos (Nat.lt_of_lt_of_le hn hle)
  have hlen : ((unread s).take n).length = n := List.length_take_of_le hle
  simp only [timedHost, missed, hd, hin, decide_false, Bool.false_or]
  change (if (unread s).isEmpty = true then _ else _) = _
  rw [hne, if_neg (by simp)]
  simp only [unread] at hlen
  simp only [unread, hlen]

theorem timed_read_late (hd : s.readDeadline = some d) (h : d < s.now + lat.read s.reads)
    (n : ℕ) : ∃ t, (timedHost lat).read s n = (.error deadlineExceeded, t) := by
  have hlate : d < ↑(s.now + lat.read s.reads) := by push_cast; omega
  refine ⟨((timedHost lat).read s n).2, Prod.ext ?_ rfl⟩
  simp only [timedHost, missed, hd, hlate, decide_true, Bool.true_or, if_true]

/-- Enough is there: one read is a full read. -/
theorem timed_readFull (hd : s.readDeadline = some d) (h : s.now + lat.read s.reads ≤ d) {n : ℕ}
    (hn : 0 < n) (hle : n ≤ (unread s).length) :
    (timedHost lat).readFull n s = (.ok ((unread s).take n), { s with
      now := s.now + lat.read s.reads
      reads := s.reads + 1
      consumed := s.consumed + n }) := by
  obtain ⟨m, rfl⟩ : ∃ m, n = m + 1 := ⟨n - 1, by omega⟩
  have hlen : ((unread s).take (m + 1)).length = m + 1 := List.length_take_of_le hle
  have hread := timed_read hd h hn hle
  have hfull : (timedHost lat).toSource.readFull (m + 1) s =
      ((unread s).take (m + 1), none, { s with
        now := s.now + lat.read s.reads
        reads := s.reads + 1
        consumed := s.consumed + (m + 1) }) := by
    rw [Source.readFull, Source.readUpTo, hread]
    simp only [hlen, Nat.sub_self]
    cases m <;> simp [Source.readUpTo]
  simp only [NetConn.readFull, hfull]

theorem timed_readFull_late (hd : s.readDeadline = some d) (h : d < s.now + lat.read s.reads)
    {n : ℕ} (hn : 0 < n) :
    ∃ t, (timedHost lat).readFull n s = (.error deadlineExceeded, t) := by
  obtain ⟨m, rfl⟩ : ∃ m, n = m + 1 := ⟨n - 1, by omega⟩
  obtain ⟨t, hread⟩ := timed_read_late hd h (m + 1)
  have hfull : (timedHost lat).toSource.readFull (m + 1) s =
      ([], some deadlineExceeded, t) := by
    rw [Source.readFull, Source.readUpTo, hread]
  exact ⟨t, by simp only [NetConn.readFull, hfull, deadlineExceeded]⟩

/-! ### Messages -/

theorem timed_writeMessage (hd : s.writeDeadline = some d) {k : ℕ} (hk : s.writes = 2 * k)
    (h : s.now + lat.writeMessage k ≤ d) {chunk : List UInt8} (hne : chunk ≠ []) :
    writeMessage (timedHost lat).toNetConn s chunk = (none, { s with
      now := s.now + lat.writeMessage k
      writes := 2 * (k + 1)
      outgoing := s.outgoing ++ lengthHeader.frame chunk }) := by
  rw [Latencies.writeMessage] at h ⊢
  push_cast at h
  have hpos : chunk.length > 0 := List.length_pos_of_ne_nil hne
  have hheader := @timed_write lat _ _ hd (by rw [hk]; omega) (putUint32 chunk.length)
  rw [writeMessage, hheader]
  simp only [hpos, if_true]
  let t : TimedConn := { s with
    now := s.now + lat.write s.writes
    writes := s.writes + 1
    outgoing := s.outgoing ++ putUint32 chunk.length }
  have hbody := @timed_write lat t _ hd (by simp only [t, hk]; push_cast; omega) chunk
  rw [hbody]
  simp only [t, hk, putUint32_eq, List.append_assoc, Nat.add_assoc, HeaderCode.frame]
  rfl

theorem timed_writeMessage_late (hd : s.writeDeadline = some d) {k : ℕ} (hk : s.writes = 2 * k)
    (h : d < s.now + lat.writeMessage k) {chunk : List UInt8} (hne : chunk ≠ []) :
    ∃ t, writeMessage (timedHost lat).toNetConn s chunk = (some deadlineExceeded, t) := by
  rw [Latencies.writeMessage] at h
  push_cast at h
  have hpos : chunk.length > 0 := List.length_pos_of_ne_nil hne
  rcases lt_or_ge d (s.now + lat.write s.writes) with hlate | hin
  · obtain ⟨t, hheader⟩ := timed_write_late hd hlate (putUint32 chunk.length)
    exact ⟨t, by rw [writeMessage, hheader]⟩
  · have hheader := @timed_write lat _ _ hd hin (putUint32 chunk.length)
    let t : TimedConn := { s with
      now := s.now + lat.write s.writes
      writes := s.writes + 1
      outgoing := s.outgoing ++ putUint32 chunk.length }
    obtain ⟨u, hbody⟩ := @timed_write_late lat t _ hd
      (by simp only [t, hk]; push_cast; omega) chunk
    exact ⟨u, by rw [writeMessage, hheader]; simp only [hpos, if_true]; exact hbody⟩

/-- The answer to a message that was sent whole. -/
theorem timed_readMessage (hd : s.readDeadline = some d) {k : ℕ} (hk : s.reads = 2 * k)
    (h : s.now + lat.readMessage k ≤ d) {answer r : List UInt8} (hne : answer ≠ [])
    (hb : answer.length < 2 ^ 32) (hunread : unread s = lengthHeader.frame answer ++ r) :
    readMessage (timedHost lat).toNetConn s = (.ok answer, { s with
      now := s.now + lat.readMessage k
      reads := 2 * (k + 1)
      consumed := s.consumed + (lengthHeader.frame answer).length }) := by
  rw [Latencies.readMessage] at h ⊢
  push_cast at h
  have hpos : 0 < answer.length := List.length_pos_of_ne_nil hne
  have hdeclared : lengthHeader.declared (unread s) = some answer.length := by
    rw [hunread]
    exact HeaderCode.declared_frame hb
  obtain ⟨hlen, hu⟩ := uint32_of_declared hdeclared
  have hheader := @timed_readFull lat _ _ hd (by rw [hk]; omega) _ (by decide) hlen
  let t : TimedConn := { s with
    now := s.now + lat.read s.reads
    reads := s.reads + 1
    consumed := s.consumed + headerSize }
  have hrest : unread t = answer ++ r := by
    have hdrop : unread t = (unread s).drop headerSize := by
      simp only [t, unread, List.drop_drop]
    rw [hdrop, hunread]
    exact @HeaderCode.drop_frame _ lengthHeader answer r
  have hbody := @timed_readFull lat t _ hd (by simp only [t, hk]; push_cast; omega)
    answer.length hpos (by simp [hrest])
  have hnz := uint32_ne_zero (by rw [hu]; exact hpos)
  rw [readMessage, hheader]
  simp only [hnz, if_false, hu]
  rw [hbody, hrest, List.take_left]
  simp only [t, hk, Nat.add_assoc, HeaderCode.length_frame]
  rfl

theorem timed_readMessage_late (hd : s.readDeadline = some d) {k : ℕ} (hk : s.reads = 2 * k)
    (h : d < s.now + lat.readMessage k) {answer r : List UInt8} (hne : answer ≠ [])
    (hb : answer.length < 2 ^ 32) (hunread : unread s = lengthHeader.frame answer ++ r) :
    ∃ t, readMessage (timedHost lat).toNetConn s = (.error deadlineExceeded, t) := by
  rw [Latencies.readMessage] at h
  push_cast at h
  have hpos : 0 < answer.length := List.length_pos_of_ne_nil hne
  have hdeclared : lengthHeader.declared (unread s) = some answer.length := by
    rw [hunread]
    exact HeaderCode.declared_frame hb
  obtain ⟨hlen, hu⟩ := uint32_of_declared hdeclared
  rcases lt_or_ge d (s.now + lat.read s.reads) with hlate | hin
  · obtain ⟨t, hheader⟩ := timed_readFull_late (n := headerSize) hd hlate (by decide)
    exact ⟨t, by rw [readMessage, hheader]⟩
  · have hheader := @timed_readFull lat _ _ hd hin _ (by decide) hlen
    let t : TimedConn := { s with
      now := s.now + lat.read s.reads
      reads := s.reads + 1
      consumed := s.consumed + headerSize }
    obtain ⟨u, hbody⟩ := @timed_readFull_late lat t _ hd
      (by simp only [t, hk]; push_cast; omega) answer.length hpos
    have hnz := uint32_ne_zero (by rw [hu]; exact hpos)
    refine ⟨u, ?_⟩
    rw [readMessage, hheader]
    simp only [hnz, if_false, hu]
    rw [hbody]

/-- The messages sent are answered in order. -/
theorem answers_encode {ps : List (List UInt8)} (h : ∀ p ∈ ps, p.length < 2 ^ 32) :
    TimedConn.answers (lengthHeader.encode ps) = lengthHeader.encode (ps.map List.reverse) := by
  rw [TimedConn.answers, HeaderCode.parse_encode fun p hp => ⟨h p hp, rfl⟩]

/-! ### Rounds against the clock -/

/-- The connection before round `k`: the rounds so far took their time and were answered, and
the deadlines are still those of the start. -/
structure Served (ps : List (List UInt8)) (lat : Latencies) (instant k : ℕ) (s : TimedConn) :
    Prop where
  now : s.now = instant + lat.elapsed k
  inTime : lat.elapsed k ≤ Client.timeout
  readDeadline : s.readDeadline = some (instant + Client.timeout)
  writeDeadline : s.writeDeadline = some (instant + Client.timeout)
  outgoing : s.outgoing = lengthHeader.encode (ps.take k)
  consumed : s.consumed = (lengthHeader.encode ((ps.take k).map List.reverse)).length
  writes : s.writes = 2 * k
  reads : s.reads = 2 * k

/-- What was sent in the round, while the answer is waited for. -/
structure Sent (ps : List (List UInt8)) (lat : Latencies) (instant k : ℕ) (s : TimedConn) :
    Prop where
  now : s.now = instant + lat.elapsed k + lat.writeMessage k
  readDeadline : s.readDeadline = some (instant + Client.timeout)
  writeDeadline : s.writeDeadline = some (instant + Client.timeout)
  outgoing : s.outgoing = lengthHeader.encode (ps.take (k + 1))
  consumed : s.consumed = (lengthHeader.encode ((ps.take k).map List.reverse)).length
  writes : s.writes = 2 * (k + 1)
  reads : s.reads = 2 * k

/-- Messages that a header can announce, none of them empty. -/
structure Messages (ps : List (List UInt8)) : Prop where
  ne_nil : ∀ p ∈ ps, p ≠ []
  short : ∀ p ∈ ps, p.length < 2 ^ 32

variable {ps : List (List UInt8)} {instant k : ℕ}

theorem Served.send (h : Served ps lat instant k s) (hps : Messages ps) (hk : k < ps.length) :
    (∃ t, writeMessage (timedHost lat).toNetConn s ps[k] = (none, t) ∧
        Sent ps lat instant k t) ∨
      (∃ t, writeMessage (timedHost lat).toNetConn s ps[k] = (some deadlineExceeded, t)) ∧
        Client.timeout < lat.elapsed (k + 1) := by
  have hne := hps.ne_nil _ (List.getElem_mem hk)
  rcases lt_or_ge (↑instant + Client.timeout) (s.now + lat.writeMessage k : ℤ) with hlate | hin
  · refine .inr ⟨timed_writeMessage_late h.writeDeadline h.writes hlate hne, ?_⟩
    rw [h.now] at hlate
    rw [Latencies.elapsed]
    push_cast at hlate ⊢
    omega
  · refine .inl ⟨_, timed_writeMessage h.writeDeadline h.writes hin hne, ?_⟩
    constructor
    · rw [h.now]
    · exact h.readDeadline
    · exact h.writeDeadline
    · rw [HeaderCode.encode_take_add_one _ hk, h.outgoing]
    · exact h.consumed
    · rfl
    · exact h.reads

/-- The server has answered the message of the round. -/
theorem Sent.unread (h : Sent ps lat instant k s) (hps : Messages ps) (hk : k < ps.length) :
    TimedConn.unread s = lengthHeader.frame ps[k].reverse := by
  have hshort : ∀ p ∈ ps.take (k + 1), p.length < 2 ^ 32 :=
    fun p hp => hps.short p (List.mem_of_mem_take hp)
  rw [TimedConn.unread, h.outgoing, answers_encode hshort, h.consumed, List.map_take,
    List.map_take, HeaderCode.encode_take_add_one _ (by rwa [List.length_map]), List.drop_left,
    List.getElem_map]

theorem Sent.receive (h : Sent ps lat instant k s) (hps : Messages ps) (hk : k < ps.length) :
    (∃ t, readMessage (timedHost lat).toNetConn s = (.ok ps[k].reverse, t) ∧
        Served ps lat instant (k + 1) t) ∨
      (∃ t, readMessage (timedHost lat).toNetConn s = (.error deadlineExceeded, t)) ∧
        Client.timeout < lat.elapsed (k + 1) := by
  have hne : ps[k].reverse ≠ [] := by simpa using hps.ne_nil _ (List.getElem_mem hk)
  have hb : ps[k].reverse.length < 2 ^ 32 := by
    rw [List.length_reverse]
    exact hps.short _ (List.getElem_mem hk)
  have hunread := (h.unread hps hk).trans (List.append_nil _).symm
  rcases lt_or_ge (↑instant + Client.timeout) (s.now + lat.readMessage k : ℤ) with hlate | hin
  · refine .inr ⟨timed_readMessage_late h.readDeadline h.reads hlate hne hb hunread, ?_⟩
    rw [h.now] at hlate
    rw [Latencies.elapsed]
    push_cast at hlate ⊢
    omega
  · refine .inl ⟨_, timed_readMessage h.readDeadline h.reads hin hne hb hunread, ?_⟩
    constructor
    · rw [h.now, Latencies.elapsed]
      dsimp only
      omega
    · rw [h.now] at hin
      rw [Latencies.elapsed]
      push_cast at hin ⊢
      omega
    · exact h.readDeadline
    · exact h.writeDeadline
    · exact h.outgoing
    · rw [List.map_take, HeaderCode.encode_take_add_one _ (by rwa [List.length_map]),
        List.length_append, List.getElem_map, h.consumed, List.map_take]
    · exact h.writes
    · rfl

/-- A round goes well, unless the time of all rounds up to this one is more than the deadlines
allow. -/
theorem Served.exchanged (h : Served ps lat instant k s) (hps : Messages ps)
    (hk : k < ps.length) :
    (∃ t, Client.exchanged (timedHost lat) s ps[k] = some t ∧
        Served ps lat instant (k + 1) t) ∨
      Client.exchanged (timedHost lat) s ps[k] = none ∧
        Client.timeout < lat.elapsed (k + 1) := by
  rcases h.send hps hk with ⟨sent, hwrite, hsent⟩ | ⟨⟨conn, hwrite⟩, hlate⟩
  · rcases hsent.receive hps hk with ⟨conn, hread, hserved⟩ | ⟨⟨conn, hread⟩, hlate⟩
    · refine .inl ⟨conn, ?_, hserved⟩
      simp only [Client.exchanged, timed_now, hwrite, hread, if_true]
    · refine .inr ⟨?_, hlate⟩
      simp only [Client.exchanged, timed_now, hwrite, hread]
  · refine .inr ⟨?_, hlate⟩
    simp only [Client.exchanged, timed_now, hwrite]

/-- From round `k` on, all messages are answered if and only if the time of all rounds is within
the timeout. -/
theorem Served.foldlM_iff (hps : Messages ps) (n : ℕ) :
    ∀ (k : ℕ) (s : TimedConn), Served ps lat instant k s → k + n = ps.length →
      ((ps.drop k).foldlM (Client.exchanged (timedHost lat)) s ≠ none ↔
        lat.elapsed ps.length ≤ Client.timeout) := by
  induction n with
  | zero =>
    intro k s h hn
    rw [List.drop_eq_nil_of_le (by omega), ← hn]
    exact iff_of_true nofun h.inTime
  | succ n ih =>
    intro k s h hn
    have hk : k < ps.length := by omega
    rw [List.drop_eq_getElem_cons hk, List.foldlM_cons]
    rcases h.exchanged hps hk with ⟨t, hex, hserved⟩ | ⟨hex, hlate⟩
    · rw [hex]
      exact ih (k + 1) t hserved (by omega)
    · rw [hex]
      refine iff_of_false (fun hne => hne rfl) ?_
      have hmono : lat.elapsed (k + 1) ≤ lat.elapsed ps.length := lat.elapsed_mono hk
      omega

/-- The connection once it is established. -/
def TimedConn.connected (instant : ℕ) : TimedConn := ⟨instant, none, none, [], 0, 0, 0⟩

/-! ### The transfer -/

variable (f : File) (chunkSize : ChunkSize) (sizes : ReadSizes)

/-- The client has left its loop, and all chunks that it has read of the file were verified. -/
structure Client.AllVerified (c : Client TimedConn) : Prop where
  finished : c.status = .finished
  verified : c.metricsAggregator.chunksVerifiedOK =
    (chunks (sizes.diskOf f) chunkSize.val).length
  failed : c.metricsAggregator.chunksVerifiedFail = 0
  whole : c.metricsAggregator.totalBytesProcessed = f.bytes.length

/-- The transfer of the file ends with all its chunks verified. -/
def Completes (lat : Latencies) (instant : ℕ) : Prop :=
  ∃ t, Machine.Halts (Client.next (timedHost lat))
      (Client.start (timedHost lat) (sizes.diskOf f) chunkSize (.connected instant)) t ∧
    Client.AllVerified f chunkSize sizes t

theorem messages_chunks : Messages (chunks (sizes.diskOf f) chunkSize.val) where
  ne_nil _ hp := sizes.chunks_ne_nil f chunkSize.val hp
  short _ hp := sizes.length_chunks_lt f chunkSize.val hp

theorem served_start (ps : List (List UInt8)) (lat : Latencies) (instant : ℕ) :
    Served ps lat instant 0
      (Client.start (timedHost lat) (sizes.diskOf f) chunkSize (.connected instant)).conn where
  now := rfl
  inTime := le_of_lt (by decide : (0 : ℤ) < Client.timeout)
  readDeadline := rfl
  writeDeadline := rfl
  outgoing := rfl
  consumed := rfl
  writes := rfl
  reads := rfl

variable {f chunkSize sizes} {instant : ℕ}

theorem exists_halts (f : File) (chunkSize : ChunkSize) (sizes : ReadSizes) (lat : Latencies)
    (instant : ℕ) :
    ∃ t, Machine.Halts (Client.next (timedHost lat))
        (Client.start (timedHost lat) (sizes.diskOf f) chunkSize (.connected instant)) t ∧
      (Client.AllVerified f chunkSize sizes t ↔
        lat.elapsed (chunks (sizes.diskOf f) chunkSize.val).length ≤ Client.timeout) := by
  have hread := sizes.not_readFails f chunkSize.val
  have hserved := served_start f chunkSize sizes (chunks (sizes.diskOf f) chunkSize.val) lat instant
  have hfold := hserved.foldlM_iff (messages_chunks f chunkSize sizes) _ 0 _ (Nat.zero_add _)
  rw [List.drop_zero] at hfold
  obtain ⟨t, ht, houtcome⟩ := Client.loop_ends (timedHost lat) (sizes.diskOf f) chunkSize
    (.connected instant)
  refine ⟨t, ht, ?_⟩
  rw [← hfold]
  constructor
  · intro hall hnone
    obtain ⟨why, hwhy⟩ := houtcome.aborted (.inl hnone)
    rw [hall.finished] at hwhy
    cases hwhy
  · intro hsome
    have hcounted := houtcome.counted hsome hread
    refine ⟨hcounted.finished, hcounted.chunksVerifiedOK, hcounted.chunksVerifiedFail, ?_⟩
    rw [hcounted.totalBytesProcessed, sizes.offset_chunks f chunkSize.pos]

theorem Completes.inTime (h : Completes f chunkSize sizes lat instant) :
    lat.elapsed (chunks (sizes.diskOf f) chunkSize.val).length ≤ Client.timeout := by
  obtain ⟨t, ht, hall⟩ := h
  obtain ⟨u, hu, hiff⟩ := exists_halts f chunkSize sizes lat instant
  rw [ht.unique hu] at hall
  exact hiff.mp hall

/-- The deadlines bound the transfer, not its operations: it completes if and only if all its
messages together take no longer than one timeout. -/
theorem completes_iff (f : File) (chunkSize : ChunkSize) (sizes : ReadSizes) (lat : Latencies)
    (instant : ℕ) : Completes f chunkSize sizes lat instant ↔
      lat.elapsed (chunks (sizes.diskOf f) chunkSize.val).length ≤ Client.timeout := by
  refine ⟨Completes.inTime, fun h => ?_⟩
  obtain ⟨t, ht, hiff⟩ := exists_halts f chunkSize sizes lat instant
  exact ⟨t, ht, hiff.mpr h⟩

/-- A file of two bytes. -/
def twoBytes : File := ⟨[1, 2], by decide⟩

/-- Every read delivers as much as it may. -/
def largestReads : ReadSizes := ⟨fun _ => ⟨2 ^ 30, by decide⟩, fun _ => le_rfl⟩

/-- The second byte is the last that is read. -/
theorem lastRead_twoBytes : LastRead (largestReads.diskOf twoBytes) 1 1 := by
  constructor
  · intro i hi
    obtain rfl := Nat.lt_one_iff.mp hi
    decide
  · exact .inr (by decide)

/-- Two chunks of one byte whose answers take 40 seconds each. -/
theorem not_completes :
    let lat : Latencies := ⟨fun _ => 0, fun _ => 20 * 10 ^ 9⟩
    (∀ k, lat.writeMessage k < Client.timeout ∧ lat.readMessage k < Client.timeout) ∧
      ¬ Completes twoBytes ⟨1, by decide, by decide⟩ largestReads lat 0 := by
  refine ⟨fun k => ⟨?_, ?_⟩, fun h => ?_⟩
  · show ((0 + 0 : ℕ) : ℤ) < Client.timeout
    decide
  · show ((20 * 10 ^ 9 + 20 * 10 ^ 9 : ℕ) : ℤ) < Client.timeout
    decide
  · have hlen : (chunks (largestReads.diskOf twoBytes) 1).length = 2 := by
      rw [length_chunks, lastRead_twoBytes.eq]
      decide
    have hin := h.inTime
    rw [hlen] at hin
    exact absurd hin (by decide)

end ReversalBench.GoTcp
