import ReversalBench.Lib.Machine
import ReversalBench.Tcp.Messaging

/-! The C++ server session (`tcp_server.cpp`). Three handlers take turns: a header is
read, then a body unless it is empty, then the answer is written. The buffers are
members of the session and are used again for every message. The session runs
against a client whose bytes arrive in segments and to which writes succeed. -/

namespace ReversalBench.Tcp

/-- The asynchronous operation whose handler will run next. -/
inductive SessionOperation where
  | readHeader
  | readBody
  | write (buffers : List (List UInt8))
  deriving DecidableEq

/-- The members of a `TCPSession`, and the operation it has started; a session
without one is released. -/
structure TCPSession where
  mReadHeaderBuffer : HeaderBuffer
  mReadBodyBuffer : List UInt8
  mWriteHeaderBuffer : HeaderBuffer
  pending : Option SessionOperation

namespace TCPSession

variable (host : ByteOrder) (chunkSize : ChunkSize)

def doReadHeader (s : TCPSession) : TCPSession := { s with pending := some .readHeader }

def start (s : TCPSession) : TCPSession := s.doReadHeader

def doReadBody (s : TCPSession) : TCPSession := { s with pending := some .readBody }

def doWrite (s : TCPSession) : TCPSession :=
  let message := prepareMessage host s.mReadBodyBuffer
  { s with mWriteHeaderBuffer := message.1, pending := some (.write message.2) }

/-- The session starts no further operation. -/
def close (s : TCPSession) : TCPSession := { s with pending := none }

/-- The handler of `do_read_header`. -/
def onReadHeader (s : TCPSession) (ec : ErrorCode) : TCPSession :=
  if ec = .success then
    let bodyLength := (parseHeader host s.mReadHeaderBuffer).toNat
    if bodyLength = 0 then doWrite host { s with mReadBodyBuffer := [] }
    else if bodyLength > chunkSize.val * 2 then s.close
    else doReadBody { s with mReadBodyBuffer := resize s.mReadBodyBuffer bodyLength }
  else s.close

/-- The handler of `do_read_body`. -/
def onReadBody (s : TCPSession) (ec : ErrorCode) (lengthRead : ℕ) : TCPSession :=
  if ec = .success then
    if lengthRead ≠ s.mReadBodyBuffer.length then s.close
    else doWrite host { s with mReadBodyBuffer := reverseVectorContent s.mReadBodyBuffer }
  else s.close

/-- The handler of `do_write`. -/
def onWrite (s : TCPSession) (ec : ErrorCode) : TCPSession :=
  if ec = .success then s.doReadHeader else s.close

/-- The receiving half of the session: a header, then the body that its handler asks
for, up to the point where an answer is written. -/
def receive (s : TCPSession × List (List UInt8)) :
    Except ErrorCode (List UInt8) × (TCPSession × List (List UInt8)) :=
  let r := asyncReadHeader s.1.mReadHeaderBuffer s.2
  let t := onReadHeader host chunkSize { s.1 with mReadHeaderBuffer := r.buffer } r.ec
  match t.pending with
  | some .readBody =>
    let r := asyncRead t.mReadBodyBuffer r.input
    let u := onReadBody host { t with mReadBodyBuffer := r.buffer } r.ec r.lengthRead
    match u.pending with
    | some _ => (.ok r.buffer, (u, r.input))
    | none => (.error r.ec, (u, r.input))
  | some _ => (.ok t.mReadBodyBuffer, (t, r.input))
  | none => (.error r.ec, (t, r.input))

end TCPSession

/-- A session and its client: what the client has still to deliver, and what was
written to it. -/
structure Serving where
  session : TCPSession
  input : List (List UInt8)
  output : List UInt8

namespace Serving

open StateTransition (Reaches)

variable (host : ByteOrder) (chunkSize : ChunkSize)

/-- The pending operation completes and its handler runs. -/
def next (c : Serving) : Option Serving :=
  match c.session.pending with
  | none => none
  | some .readHeader =>
    let r := asyncReadHeader c.session.mReadHeaderBuffer c.input
    let s := { c.session with mReadHeaderBuffer := r.buffer }
    some { c with session := s.onReadHeader host chunkSize r.ec, input := r.input }
  | some .readBody =>
    let r := asyncRead c.session.mReadBodyBuffer c.input
    let s := { c.session with mReadBodyBuffer := r.buffer }
    some { c with session := s.onReadBody host r.ec r.lengthRead, input := r.input }
  | some (.write buffers) =>
    some { c with session := c.session.onWrite .success, output := c.output ++ buffers.flatten }

/-! ### One message -/

variable {chunkSize}

/-- An answer is written and the session waits for the next message. -/
theorem answer (s : TCPSession) (input : List (List UInt8)) (output : List UInt8) :
    next host chunkSize ⟨s.doWrite host, input, output⟩ =
      some ⟨(s.doWrite host).doReadHeader, input,
        output ++ lengthHeader.frame s.mReadBodyBuffer⟩ := by
  simp only [next, TCPSession.doWrite, TCPSession.onWrite, if_true, prepareMessage_flatten]

/-- Where an accepted frame is next, its payload is received and reversed, whatever the
buffers held, and the session goes on to the answer. -/
theorem receive_frame (s : TCPSession) {input : List (List UInt8)} {p r : List UInt8}
    (h : lengthHeader.next (accepts chunkSize) input.flatten = some (p, r)) :
    ∃ (s' : TCPSession) (input' : List (List UInt8)),
      TCPSession.receive host chunkSize (s, input) = (.ok p, (s'.doWrite host, input')) ∧
      s'.mReadBodyBuffer = p.reverse ∧ input'.flatten = r ∧
      ∀ output, Reaches (next host chunkSize) ⟨s.doReadHeader, input, output⟩
        ⟨s'.doWrite host, input', output⟩ := by
  obtain ⟨hb, hok, hin⟩ := HeaderCode.next_eq_some_iff.mp h
  have hle : ¬ chunkSize.val * 2 < p.length := by simpa [accepts] using hok
  obtain ⟨buffer, input₁, hr, hd, hrest⟩ := asyncReadHeader_full host s.mReadHeaderBuffer
    (hin ▸ HeaderCode.declared_frame (r := r) hb)
  have hrest : input₁.flatten = p ++ r := by
    rw [hrest, hin]
    exact @HeaderCode.drop_frame _ lengthHeader p r
  let s₁ := { s with mReadHeaderBuffer := buffer }
  by_cases hp : p.length = 0
  · have hnil : p = [] := List.length_eq_zero_iff.mp hp
    subst hnil
    refine ⟨{ s₁ with mReadBodyBuffer := [] }, input₁, ?_, rfl, hrest, fun output => .single ?_⟩
    · simp only [TCPSession.receive, hr, TCPSession.onReadHeader, hd, hp, if_true,
        TCPSession.doWrite, s₁]
    · simp only [next, TCPSession.doReadHeader, hr, TCPSession.onReadHeader, hd, hp, if_true, s₁]
      rfl
  · let s₂ := { s₁ with mReadBodyBuffer := resize s.mReadBodyBuffer p.length }
    have hlen : s₂.mReadBodyBuffer.length = p.length := length_resize _ _
    obtain ⟨input₂, hr₂, hrest₂⟩ := @asyncRead_full s₂.mReadBodyBuffer input₁
      (by rw [hlen, hrest, List.length_append]; omega)
    rw [hlen, hrest, List.take_left] at hr₂
    rw [hlen, hrest, List.drop_left] at hrest₂
    have hheader : ∀ output, next host chunkSize ⟨s.doReadHeader, input, output⟩ =
        some ⟨s₂.doReadBody, input₁, output⟩ := by
      intro output
      simp only [next, TCPSession.doReadHeader, hr, TCPSession.onReadHeader, hd, hp, hle, if_true,
        if_false, s₂, s₁]
      rfl
    refine ⟨{ s₂ with mReadBodyBuffer := p.reverse }, input₂, ?_, rfl, hrest₂,
      fun output => .head (hheader output) (.single ?_)⟩
    · simp only [s₂] at hr₂
      simp only [TCPSession.receive, hr, TCPSession.onReadHeader, hd, hp, hle, if_true, if_false,
        TCPSession.doReadBody, hr₂, TCPSession.onReadBody, ne_eq, not_true_eq_false,
        TCPSession.doWrite, reverseVectorContent, s₂, s₁]
    · simp only [next, TCPSession.doReadBody, hr₂, TCPSession.onReadBody, if_true, ne_eq,
        not_true_eq_false, if_false, reverseVectorContent]
      rfl

/-- Where no accepted frame is next, nothing is received and the session is released. -/
theorem receive_stop (s : TCPSession) {input : List (List UInt8)}
    (h : lengthHeader.next (accepts chunkSize) input.flatten = none) :
    ∃ (e : ErrorCode) (s' : TCPSession) (input' : List (List UInt8)),
      TCPSession.receive host chunkSize (s, input) = (.error e, (s'.close, input')) ∧
      input'.flatten = lengthHeader.unread (accepts chunkSize) input.flatten ∧
      ∀ output, Reaches (next host chunkSize) ⟨s.doReadHeader, input, output⟩
        ⟨s'.close, input', output⟩ := by
  rcases HeaderCode.next_eq_none_iff.mp h with hdecl | ⟨d, hdecl, hshort⟩
  · obtain ⟨n, buffer, input', hr, hrest⟩ := asyncReadHeader_short s.mReadHeaderBuffer hdecl
    refine ⟨.eof, { s with mReadHeaderBuffer := buffer }, input', ?_, ?_, fun output => .single ?_⟩
    · simp [TCPSession.receive, hr, TCPSession.onReadHeader, TCPSession.close]
    · simpa [HeaderCode.unread, hdecl] using hrest
    · simp [next, TCPSession.doReadHeader, hr, TCPSession.onReadHeader, TCPSession.close]
  obtain ⟨buffer, input₁, hr, hd, hrest⟩ := asyncReadHeader_full host s.mReadHeaderBuffer hdecl
  let s₁ := { s with mReadHeaderBuffer := buffer }
  cases hok : accepts chunkSize d with
  | false =>
    have hgt : chunkSize.val * 2 < d := by simpa [accepts] using hok
    have hne : d ≠ 0 := by omega
    refine ⟨.success, s₁, input₁, ?_, ?_, fun output => .single ?_⟩
    · simp only [TCPSession.receive, hr, TCPSession.onReadHeader, hd, hne, hgt, if_true, if_false,
        TCPSession.close, s₁]
    · simpa [HeaderCode.unread, hdecl, hok] using hrest
    · simp only [next, TCPSession.doReadHeader, hr, TCPSession.onReadHeader, hd, hne, hgt,
        if_true, if_false, s₁]
      rfl
  | true =>
    have hle : ¬ chunkSize.val * 2 < d := by simpa [accepts] using hok
    have hlt : input₁.flatten.length < d := by
      rw [hrest]
      exact hshort.resolve_left (by simp [hok])
    have hne : d ≠ 0 := by omega
    let s₂ := { s₁ with mReadBodyBuffer := resize s.mReadBodyBuffer d }
    obtain ⟨input₂, hr₂, hrest₂⟩ := @asyncRead_short s₂.mReadBodyBuffer input₁
      (hlt.trans_eq (length_resize _ _).symm)
    have hheader : ∀ output, next host chunkSize ⟨s.doReadHeader, input, output⟩ =
        some ⟨s₂.doReadBody, input₁, output⟩ := by
      intro output
      simp only [next, TCPSession.doReadHeader, hr, TCPSession.onReadHeader, hd, hne, hle,
        if_true, if_false, s₂, s₁]
      rfl
    let s₃ := { s₂ with
      mReadBodyBuffer := input₁.flatten ++ s₂.mReadBodyBuffer.drop input₁.flatten.length }
    refine ⟨.eof, s₃, input₂, ?_, ?_, fun output => .head (hheader output) (.single ?_)⟩
    · simp only [s₂] at hr₂
      simp only [TCPSession.receive, hr, TCPSession.onReadHeader, hd, hne, hle, if_true, if_false,
        TCPSession.doReadBody, hr₂, TCPSession.onReadBody, reduceCtorEq, TCPSession.close, s₃, s₂,
        s₁]
    · simpa [HeaderCode.unread, hdecl, hok] using hrest₂
    · simp only [next, TCPSession.doReadBody, hr₂, TCPSession.onReadBody, reduceCtorEq, if_false,
        s₃]
      rfl

/-- The session receives the frames of the stream that are within the limit. -/
theorem receive_receives : lengthHeader.Receives (accepts chunkSize)
    (TCPSession.receive host chunkSize) (fun s => s.2.flatten) where
  frame {s p r} h := by
    obtain ⟨s', input', hr, -, hrest, -⟩ := receive_frame host s.1 h
    exact ⟨(s'.doWrite host, input'), hr, hrest⟩
  stop {s} h := by
    obtain ⟨e, s', input', hr, hrest, -⟩ := receive_stop host s.1 h
    exact ⟨e, (s'.close, input'), hr, hrest⟩

/-! ### Whole streams -/

/-- From a header read on, the session answers the accepted frames one after the
other, and ends at the first message that is not one. Nothing depends on what the
buffers hold. -/
theorem serve (s : TCPSession) (input : List (List UInt8)) (output : List UInt8) :
    ∃ t, Machine.Halts (next host chunkSize) ⟨s.doReadHeader, input, output⟩ t ∧
      t.output = output ++ lengthHeader.encode
        ((lengthHeader.parse (accepts chunkSize) input.flatten).1.map List.reverse) ∧
      t.input.flatten = lengthHeader.unread (accepts chunkSize)
        (lengthHeader.parse (accepts chunkSize) input.flatten).2 := by
  generalize hl : input.flatten = l
  induction l using HeaderCode.parse_induction lengthHeader (accepts chunkSize)
    generalizing s input output with
  | stop l hn =>
    subst hl
    obtain ⟨e, s', input', -, hrest, hreach⟩ := receive_stop host s hn
    refine ⟨_, ⟨hreach output, rfl⟩, ?_, ?_⟩
    · simp [HeaderCode.parse_of_none hn]
    · rwa [HeaderCode.parse_of_none hn]
  | frame l p r hn ih =>
    subst hl
    obtain ⟨s', input', -, hbody, hrest, hreach⟩ := receive_frame host s hn
    obtain ⟨t, hh, hout, hin⟩ :=
      ih (s'.doWrite host) input' (output ++ lengthHeader.frame s'.mReadBodyBuffer) hrest
    have hanswer := (hreach output).trans (.single (answer host s' input' output))
    refine ⟨t, Machine.halts_of_reaches hanswer hh, ?_, ?_⟩
    · simp [hout, hbody, HeaderCode.parse_of_some hn]
    · rwa [HeaderCode.parse_of_some hn]

/-- The session computes the reversal of every frame: whatever its buffers hold at
first, whatever the client sends and however it is cut into segments, the session
ends, having written the reversed payloads of the longest prefix of complete frames
within the limit, and having read nothing beyond the message that ends it. -/
theorem session_reverses (host : ByteOrder) (chunkSize : ChunkSize) (s : TCPSession)
    (input : List (List UInt8)) :
    ∃ t, Machine.Halts (next host chunkSize) ⟨s.start, input, []⟩ t ∧
      t.output = lengthHeader.encode
        ((lengthHeader.parse (accepts chunkSize) input.flatten).1.map List.reverse) ∧
      t.input.flatten = lengthHeader.unread (accepts chunkSize)
        (lengthHeader.parse (accepts chunkSize) input.flatten).2 := by
  exact serve host s input []

end Serving

end ReversalBench.Tcp
