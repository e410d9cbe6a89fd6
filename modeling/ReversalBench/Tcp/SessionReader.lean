import ReversalBench.Lib.Reader
import ReversalBench.Tcp.Server

/-! A session of the C++ server as a program on a connection. A handler runs when its
operation is finished: a read when its buffer can be filled or the client has closed the
connection, a write at any time. -/

namespace ReversalBench.Tcp

open Reader (tokens)

/-- A chunk on its way to the server, and its answer. -/
def exchange (c : List UInt8) : List (Option UInt8) × List (Option UInt8) :=
  (tokens (lengthHeader.frame c) false, tokens (lengthHeader.frame c.reverse) false)

/-! ### Reads for which enough has come -/

theorem asyncRead_enough {buffer l : List UInt8} (h : buffer.length ≤ l.length) :
    ∃ input, asyncRead buffer [l] =
        ⟨.success, buffer.length, l.take buffer.length, input⟩ ∧
      l.length - input.flatten.length = buffer.length := by
  have hflat : [l].flatten = l := List.flatten_singleton
  obtain ⟨input, hr, hrest⟩ := @asyncRead_full buffer [l] (by rwa [hflat])
  rw [hflat] at hr hrest
  refine ⟨input, hr, ?_⟩
  rw [hrest, List.length_drop]
  omega

/-- The header buffer filled from the front of what has come. -/
def firstHeader (l : List UInt8) (h : headerSize ≤ l.length) : HeaderBuffer :=
  ⟨l.take headerSize, List.length_take_of_le h⟩

theorem firstHeader_append {l : List UInt8} (h : headerSize ≤ l.length) (m : List UInt8)
    (h' : headerSize ≤ (l ++ m).length) : firstHeader (l ++ m) h' = firstHeader l h :=
  Subtype.ext (List.take_append_of_le_length h)

theorem asyncReadHeader_enough (headerBuffer : HeaderBuffer) {l : List UInt8}
    (h : headerSize ≤ l.length) :
    ∃ input, asyncReadHeader headerBuffer [l] =
        ⟨.success, headerSize, firstHeader l h, input⟩ ∧
      l.length - input.flatten.length = headerSize := by
  obtain ⟨input, hr, hrest⟩ := asyncRead_enough (headerBuffer.property.trans_le h)
  rw [headerBuffer.property] at hr hrest
  exact ⟨input, by simp only [asyncReadHeader, hr]; rfl, hrest⟩

theorem headerSize_le_frame (p : List UInt8) : headerSize ≤ (lengthHeader.frame p).length := by
  rw [HeaderCode.length_frame]
  exact Nat.le_add_right _ _

/-- The header of a frame declares the length of its payload. -/
theorem parseHeader_frame (host : ByteOrder) {p : List UInt8} (hb : p.length < 2 ^ 32) :
    (parseHeader host (firstHeader _ (headerSize_le_frame p))).toNat = p.length := by
  rw [parseHeader_toNat]
  have hdecl := @HeaderCode.declared_frame _ lengthHeader p [] (lengthHeader_bound ▸ hb)
  rw [List.append_nil] at hdecl
  exact (HeaderCode.declared_eq_some_iff.mp hdecl).2

theorem drop_frame (p : List UInt8) : (lengthHeader.frame p).drop headerSize = p := by
  have hdrop := @HeaderCode.drop_frame _ lengthHeader p []
  rwa [List.append_nil, List.append_nil] at hdrop

/-! ### The handlers -/

namespace TCPSession

variable (host : ByteOrder) (chunkSize : ChunkSize)

/-- The pending operation can be finished with what has come. -/
def enough (s : TCPSession) (l : List UInt8) : Bool :=
  match s.pending with
  | some .readHeader => decide (headerSize ≤ l.length)
  | some .readBody => decide (s.mReadBodyBuffer.length ≤ l.length)
  | _ => true

/-- The next handler. A session that starts no further operation closes its socket. -/
def proceed (s : TCPSession) (l : List UInt8) : Option (Effect TCPSession UInt8 × Bool) :=
  (Serving.next host chunkSize ⟨s, [l], []⟩).map fun c =>
    (⟨c.session, l.length - c.input.flatten.length, c.output⟩, c.session.pending.isNone)

theorem proceed_header {s : TCPSession} {l : List UInt8} (hp : s.pending = some .readHeader)
    (h : headerSize ≤ l.length) :
    s.proceed host chunkSize l =
      let t := ({ s with mReadHeaderBuffer := firstHeader l h } : TCPSession).onReadHeader
        host chunkSize .success
      some (⟨t, headerSize, []⟩, t.pending.isNone) := by
  obtain ⟨input, hr, hrest⟩ := asyncReadHeader_enough s.mReadHeaderBuffer h
  simp only [proceed, Serving.next, hp, hr, Option.map_some, hrest]

theorem proceed_body {s : TCPSession} {l : List UInt8} (hp : s.pending = some .readBody)
    (h : s.mReadBodyBuffer.length ≤ l.length) :
    s.proceed host chunkSize l =
      let t := ({ s with mReadBodyBuffer := l.take s.mReadBodyBuffer.length } :
        TCPSession).onReadBody host .success s.mReadBodyBuffer.length
      some (⟨t, s.mReadBodyBuffer.length, []⟩, t.pending.isNone) := by
  obtain ⟨input, hr, hrest⟩ := asyncRead_enough h
  simp only [proceed, Serving.next, hp, hr, Option.map_some, hrest]

theorem proceed_write {s : TCPSession} {l : List UInt8} {buffers : List (List UInt8)}
    (hp : s.pending = some (.write buffers)) :
    s.proceed host chunkSize l =
      some (⟨s.onWrite .success, 0, buffers.flatten⟩, (s.onWrite .success).pending.isNone) := by
  simp only [proceed, Serving.next, hp, Option.map_some, List.flatten_singleton, Nat.sub_self,
    List.nil_append]

/-- The session as a program that reads the stream of its client. -/
def reader : Reader TCPSession UInt8 where
  enough := enough
  next := proceed host chunkSize
  consumed_le {s l r} h := by
    obtain ⟨c, -, rfl⟩ := Option.map_eq_some_iff.mp h
    exact Nat.sub_le _ _
  eager {s l} h m := by
    have hle : l.length ≤ (l ++ m).length := by simp
    cases hp : s.pending with
    | none => simp only [enough, hp, proceed, Serving.next, Option.map_none, and_self]
    | some op =>
      cases op with
      | readHeader =>
        have hfull : headerSize ≤ l.length := by simpa [enough, hp] using h
        refine ⟨by simp only [enough, hp, decide_eq_true (hfull.trans hle)], ?_⟩
        rw [proceed_header host chunkSize hp hfull,
          proceed_header host chunkSize hp (hfull.trans hle), firstHeader_append hfull]
      | readBody =>
        have hfull : s.mReadBodyBuffer.length ≤ l.length := by simpa [enough, hp] using h
        refine ⟨by simp only [enough, hp, decide_eq_true (hfull.trans hle)], ?_⟩
        rw [proceed_body host chunkSize hp hfull,
          proceed_body host chunkSize hp (hfull.trans hle)]
        simp only [List.take_append_of_le_length hfull]
      | write buffers =>
        refine ⟨by simp only [enough, hp], ?_⟩
        rw [proceed_write host chunkSize hp, proceed_write host chunkSize hp]

theorem enough_header (s : TCPSession) (p : List UInt8) :
    (reader host chunkSize).enough s.doReadHeader (lengthHeader.frame p) = true :=
  decide_eq_true (headerSize_le_frame p)

variable {host chunkSize}

/-- An answer that is due is written. -/
theorem turn_write (s : TCPSession) :
    (reader host chunkSize).endpoint.Turn (s.doWrite host) (tokens [] false)
      (tokens (lengthHeader.frame s.mReadBodyBuffer) false) (s.doWrite host).doReadHeader
      (tokens [] false) := by
  have henough : (reader host chunkSize).enough (s.doWrite host) [] = true := rfl
  have hnext : (reader host chunkSize).next (s.doWrite host) [] =
      some (⟨(s.doWrite host).doReadHeader, 0, lengthHeader.frame s.mReadBodyBuffer⟩, false) := by
    rw [← prepareMessage_flatten host]
    exact @proceed_write host chunkSize (s.doWrite host) _ _ rfl
  exact Reader.turn_single henough hnext

/-- A frame within the limit is answered with the reversed payload. -/
theorem turn_frame (s : TCPSession) {p : List UInt8} (hb : p.length < 2 ^ 32)
    (hok : accepts chunkSize p.length = true) :
    ∃ s' : TCPSession, (reader host chunkSize).endpoint.Turn s.doReadHeader
      (tokens (lengthHeader.frame p) false) (tokens (lengthHeader.frame p.reverse) false)
      s'.doReadHeader (tokens [] false) := by
  have hle : ¬ p.length > chunkSize.val * 2 := by simpa [accepts] using hok
  have hheader := proceed_header host chunkSize (s := s.doReadHeader) rfl (headerSize_le_frame p)
  have hparse := parseHeader_frame host hb
  have henough := enough_header host chunkSize s p
  let s₁ := { s with mReadHeaderBuffer := firstHeader _ (headerSize_le_frame p) }
  by_cases hp : p.length = 0
  · have hnil : p = [] := List.length_eq_zero_iff.mp hp
    let s₂ := { s₁ with mReadBodyBuffer := [] }
    have hnext : (reader host chunkSize).next s.doReadHeader (lengthHeader.frame p) =
        some (⟨s₂.doWrite host, headerSize, []⟩, false) := by
      refine hheader.trans ?_
      simp only [onReadHeader, if_true, hparse, hp]
      rfl
    refine ⟨s₂.doWrite host, Reader.turn_cons henough hnext (drop_frame p) ?_ rfl⟩
    rw [hnil]
    exact turn_write s₂
  · let s₂ := { s₁ with mReadBodyBuffer := resize s.mReadBodyBuffer p.length }
    let s₃ := { s₂ with mReadBodyBuffer := p.reverse }
    have hlen : s₂.mReadBodyBuffer.length = p.length := length_resize _ _
    have hnext : (reader host chunkSize).next s.doReadHeader (lengthHeader.frame p) =
        some (⟨s₂.doReadBody, headerSize, []⟩, false) := by
      refine hheader.trans ?_
      simp only [onReadHeader, if_true, hparse, hp, hle, if_false]
      rfl
    have hbody : (reader host chunkSize).next s₂.doReadBody p =
        some (⟨s₃.doWrite host, p.length, []⟩, false) := by
      refine (@proceed_body host chunkSize s₂.doReadBody p rfl hlen.le).trans ?_
      have hlen' : s₂.doReadBody.mReadBodyBuffer.length = p.length := hlen
      simp only [hlen', List.take_length, onReadBody, if_true, ne_eq, not_true_eq_false, if_false]
      rfl
    have henough₂ : (reader host chunkSize).enough s₂.doReadBody p = true :=
      decide_eq_true hlen.le
    refine ⟨s₃.doWrite host, Reader.turn_cons henough hnext (drop_frame p) ?_ rfl⟩
    exact Reader.turn_cons henough₂ hbody (List.drop_length) (turn_write s₃) rfl

/-- A frame beyond the limit makes the session close the connection, its payload unread. -/
theorem turn_refuse (s : TCPSession) {p : List UInt8} (hb : p.length < 2 ^ 32)
    (hok : accepts chunkSize p.length = false) :
    ∃ s' : TCPSession, (reader host chunkSize).endpoint.Turn s.doReadHeader
        (tokens (lengthHeader.frame p) false) (tokens [] true) s' (tokens p false) ∧
      s'.pending = none := by
  have hgt : p.length > chunkSize.val * 2 := by simpa [accepts] using hok
  have hne : p.length ≠ 0 := by omega
  let s₁ := { s with mReadHeaderBuffer := firstHeader _ (headerSize_le_frame p) }
  have hnext : (reader host chunkSize).next s.doReadHeader (lengthHeader.frame p) =
      some (⟨s₁.close, headerSize, []⟩, true) := by
    refine (@proceed_header host chunkSize s.doReadHeader _ rfl (headerSize_le_frame p)).trans ?_
    simp only [onReadHeader, if_true, parseHeader_frame host hb, hne, hgt, if_false]
    rfl
  have hturn := Reader.turn_single (enough_header host chunkSize s p) hnext
  rw [drop_frame] at hturn
  exact ⟨s₁.close, hturn, rfl⟩

/-- Where the client closes the connection between two messages, the session closes it. -/
theorem turn_end (s : TCPSession) :
    ∃ s' l, (reader host chunkSize).endpoint.Turn s.doReadHeader (tokens [] true)
      (tokens [] true) s' l ∧ s'.pending = none := by
  obtain ⟨n, buffer, input, hr, -⟩ := @asyncReadHeader_short s.mReadHeaderBuffer [[]] rfl
  have hnext : (reader host chunkSize).next s.doReadHeader [] =
      some (⟨{ s with mReadHeaderBuffer := buffer }.close, 0, []⟩, true) := by
    simp only [reader, proceed, Serving.next, doReadHeader, hr, Option.map_some, onReadHeader,
      reduceCtorEq, if_false, List.length_nil, Nat.zero_sub]
    rfl
  exact ⟨_, _, Reader.turn_ended hnext, rfl⟩

/-- No operation is pending. -/
def Released (s : TCPSession) : Prop := s.pending = none

theorem stopped {s : TCPSession} (h : s.Released) (l : List (Option UInt8)) :
    (reader host chunkSize).endpoint.step s l = none := by
  refine Reader.step_eq_none (fun l => ?_) l
  have hp : s.pending = none := h
  simp only [reader, proceed, Serving.next, hp, Option.map_none]

/-- The session answers chunks within its limit until the client closes the connection. -/
theorem answers {cs : List (List UInt8)}
    (hcs : ∀ c ∈ cs, c.length < 2 ^ 32 ∧ accepts chunkSize c.length = true) (s : TCPSession) :
    (reader host chunkSize).endpoint.Answers Released (tokens [] true) (cs.map exchange) s.start
      (tokens [] false) := by
  induction cs generalizing s with
  | nil =>
    obtain ⟨s', l, hturn, hp⟩ := @turn_end host chunkSize s
    exact ⟨_, s', l, hturn, hp⟩
  | cons c cs ih =>
    obtain ⟨⟨hb, hok⟩, hrest⟩ := List.forall_mem_cons.mp hcs
    obtain ⟨s', hturn⟩ := @turn_frame host chunkSize s c hb hok
    exact ⟨_, [], hturn, ih hrest s'⟩

/-- A session that refuses a chunk is released. -/
theorem answers_refused (s : TCPSession) {p : List UInt8} (hb : p.length < 2 ^ 32)
    (hok : accepts chunkSize p.length = false) :
    (reader host chunkSize).endpoint.Answers Released (tokens [] true)
      [(tokens (lengthHeader.frame p) false, tokens [] true)] s.start (tokens [] false) := by
  obtain ⟨s', hturn, hp⟩ := @turn_refuse host chunkSize s p hb hok
  exact ⟨s', _, hturn, _, s', _, .refl, hp⟩

end TCPSession

end ReversalBench.Tcp
