import ReversalBench.Tcp.Messaging

/-! Framing in the Go benchmark (package `messaging`). Messages are written to and
read from any `net.Conn`; the connection of a peer whose bytes arrive in segments,
and to which writes succeed, is one instance. -/

namespace ReversalBench.GoTcp

open ByteOrder (big)

/-- The errors the code tells apart, and all others by their text. -/
inductive GoError where
  | eof | unexpectedEOF
  | other (message : String)
  deriving DecidableEq

/-- `net.Conn`: a source of bytes that can also be written to. A write reports an
error unless all bytes were written. -/
structure NetConn (σ : Type*) extends Source σ GoError UInt8 where
  write : σ → List UInt8 → Option GoError × σ

namespace NetConn

variable {σ : Type*} (net : NetConn σ)

/-- `io.ReadFull` into a buffer of `n` bytes: `io.EOF` if no byte was read,
`io.ErrUnexpectedEOF` if the end came after some of them. -/
def readFull (n : ℕ) (conn : σ) : Except GoError (List UInt8) × σ :=
  let r := net.toSource.readFull n conn
  match r.2.1 with
  | none => (.ok r.1, r.2.2)
  | some .eof => (.error (if r.1.isEmpty then .eof else .unexpectedEOF), r.2.2)
  | some e => (.error e, r.2.2)

/-- Connections of two kinds, each of which behaves as it does by itself. -/
def sum {τ : Type*} (other : NetConn τ) : NetConn (σ ⊕ τ) where
  read
    | .inl conn, n => ((net.read conn n).1, .inl (net.read conn n).2)
    | .inr conn, n => ((other.read conn n).1, .inr (other.read conn n).2)
  ne_nil := by
    rintro (conn | conn) n l t hn h
    · have hl : (net.read conn n).1 = .ok l := congrArg Prod.fst h
      exact net.ne_nil hn (Prod.ext hl rfl)
    · have hl : (other.read conn n).1 = .ok l := congrArg Prod.fst h
      exact other.ne_nil hn (Prod.ext hl rfl)
  length_le := by
    rintro (conn | conn) n l t h
    · have hl : (net.read conn n).1 = .ok l := congrArg Prod.fst h
      exact net.length_le (Prod.ext hl rfl)
    · have hl : (other.read conn n).1 = .ok l := congrArg Prod.fst h
      exact other.length_le (Prod.ext hl rfl)
  write
    | .inl conn, bytes => ((net.write conn bytes).1, .inl (net.write conn bytes).2)
    | .inr conn, bytes => ((other.write conn bytes).1, .inr (other.write conn bytes).2)

end NetConn

/-- `HeaderSize`. -/
def headerSize : ℕ := 4

variable {σ : Type*} (net : NetConn σ)

/-- `binary.BigEndian.PutUint32(header, uint32(n))`. -/
def putUint32 (n : ℕ) : List UInt8 := big.store headerSize (BitVec.ofNat 32 n).toNat

/-- `binary.BigEndian.Uint32(header)`. -/
def uint32 (header : List UInt8) : BitVec 32 := BitVec.ofNat 32 (big.load header)

/-- Send the header, then the payload unless it is empty. -/
def writeMessage (conn : σ) (payload : List UInt8) : Option GoError × σ :=
  match net.write conn (putUint32 payload.length) with
  | (some err, conn) => (some err, conn)
  | (none, conn) => if payload.length > 0 then net.write conn payload else (none, conn)

/-- Read the header, then as many bytes as it declares. -/
def readMessage (conn : σ) : Except GoError (List UInt8) × σ :=
  match net.readFull headerSize conn with
  | (.error err, conn) => (.error err, conn)
  | (.ok header, conn) =>
    let bodyLength := uint32 header
    if bodyLength = 0 then (.ok [], conn)
    else
      match net.readFull bodyLength.toNat conn with
      | (.error err, conn) => (.error err, conn)
      | (.ok body, conn) => (.ok body, conn)

/-- What a read of the connection does not change, reading a message does not change. -/
theorem readMessage_preserves {net} {β : Type*} {view : σ → β}
    (h : ∀ conn n, view (net.read conn n).2 = view conn) (conn : σ) :
    view (readMessage net conn).2 = view conn := by
  have hup : ∀ fuel n (conn : σ),
      view (net.toSource.readUpTo fuel n conn).2.2 = view conn := by
    intro fuel n conn
    induction fuel generalizing n conn with
    | zero => cases n <;> rfl
    | succ fuel ih =>
      cases n with
      | zero => rfl
      | succ n =>
        rw [Source.readUpTo]
        split
        next heq => rw [← h conn (n + 1), heq]
        next heq => rw [ih, ← h conn (n + 1), heq]
  have hfull : ∀ n (conn : σ), view (net.readFull n conn).2 = view conn := by
    intro n conn
    rw [← hup n n conn]
    simp only [NetConn.readFull, Source.readFull]
    split <;> rfl
  unfold readMessage
  split
  next heq => rw [← hfull headerSize conn, heq]
  next header conn₁ heq =>
    have h₁ : view conn₁ = view conn := by rw [← hfull headerSize conn, heq]
    dsimp only
    split
    · exact h₁
    · split
      next heq₂ => rw [← h₁, ← hfull (uint32 header).toNat conn₁, heq₂]
      next heq₂ => rw [← h₁, ← hfull (uint32 header).toNat conn₁, heq₂]

section Sum

variable {net} {τ : Type*} {other : NetConn τ}

theorem NetConn.readFull_inl (n : ℕ) (conn : σ) :
    (net.sum other).readFull n (.inl conn) =
      ((net.readFull n conn).1, .inl (net.readFull n conn).2) := by
  have hread : (net.sum other).toSource.readFull n (.inl conn) =
      ((net.toSource.readFull n conn).1, (net.toSource.readFull n conn).2.1,
        .inl (net.toSource.readFull n conn).2.2) :=
    Source.readUpTo_map (S := net.toSource) (f := Sum.inl) (fun _ _ => rfl) n n conn
  simp only [NetConn.readFull, hread]
  split <;> rfl

theorem readMessage_inl (conn : σ) :
    readMessage (net.sum other) (.inl conn) =
      ((readMessage net conn).1, .inl (readMessage net conn).2) := by
  unfold readMessage
  rw [NetConn.readFull_inl]
  obtain ⟨got, conn₁, hheader⟩ : ∃ got conn₁, net.readFull headerSize conn = (got, conn₁) :=
    ⟨_, _, rfl⟩
  rw [hheader]
  cases got with
  | error err => rfl
  | ok header =>
    dsimp only
    split
    · rfl
    · rw [NetConn.readFull_inl]
      obtain ⟨got, conn₂, hbody⟩ : ∃ got conn₂,
          net.readFull (uint32 header).toNat conn₁ = (got, conn₂) := ⟨_, _, rfl⟩
      rw [hbody]
      cases got <;> rfl

theorem writeMessage_inl (conn : σ) (payload : List UInt8) :
    writeMessage (net.sum other) (.inl conn) payload =
      ((writeMessage net conn payload).1, .inl (writeMessage net conn payload).2) := by
  have hwrite : ∀ conn bytes, (net.sum other).write (.inl conn) bytes =
      ((net.write conn bytes).1, .inl (net.write conn bytes).2) := fun _ _ => rfl
  unfold writeMessage
  rw [hwrite]
  obtain ⟨sent, conn₁, hheader⟩ : ∃ sent conn₁,
      net.write conn (putUint32 payload.length) = (sent, conn₁) := ⟨_, _, rfl⟩
  rw [hheader]
  cases sent with
  | some err => rfl
  | none =>
    dsimp only
    rw [hwrite]
    split <;> rfl

end Sum

/-! ### The wire format -/

open Tcp (lengthHeader)

/-- The Go header of a length is the C++ one. -/
theorem putUint32_eq (n : ℕ) : putUint32 n = lengthHeader.enc n := by
  rw [putUint32, BitVec.toNat_ofNat, ← Tcp.pow_headerSize]
  exact ByteOrder.store_mod big headerSize n

theorem pow_headerSize : 256 ^ headerSize = 2 ^ 32 := by norm_num [headerSize]

theorem uint32_toNat {header : List UInt8} (h : header.length = headerSize) :
    (uint32 header).toNat = lengthHeader.dec header := by
  have hlt := big.load_lt header
  rw [h, pow_headerSize] at hlt
  rw [uint32, BitVec.toNat_ofNat, Nat.mod_eq_of_lt hlt]
  rfl

/-- The declared length is what the header of a message is read as. -/
theorem uint32_of_declared {bs : List UInt8} {d : ℕ} (h : lengthHeader.declared bs = some d) :
    headerSize ≤ bs.length ∧ (uint32 (bs.take headerSize)).toNat = d := by
  obtain ⟨hw, hdec⟩ := HeaderCode.declared_eq_some_iff.mp h
  have hw' : headerSize ≤ bs.length := hw
  exact ⟨hw', by rw [uint32_toNat (List.length_take_of_le hw')]; exact hdec⟩

theorem uint32_ne_zero {bs : List UInt8} (h : 0 < (uint32 bs).toNat) : uint32 bs ≠ 0 := by
  rintro h0
  simp [h0] at h

/-! ### Connections that deliver a byte stream -/

section Stream

variable {net} {rest : σ → List UInt8} (hd : net.toSource.Delivers rest GoError.eof)

include hd

theorem readFull_full {n : ℕ} {conn : σ} (h : n ≤ (rest conn).length) :
    ∃ conn', net.readFull n conn = (.ok ((rest conn).take n), conn') ∧
      rest conn' = (rest conn).drop n := by
  obtain ⟨conn', hr, hrest⟩ := Source.readFull_full hd h
  exact ⟨conn', by simp only [NetConn.readFull, hr], hrest⟩

theorem readFull_short {n : ℕ} {conn : σ} (h : (rest conn).length < n) :
    ∃ conn', net.readFull n conn =
        (.error (if (rest conn).isEmpty then .eof else .unexpectedEOF), conn') ∧
      rest conn' = [] := by
  obtain ⟨conn', hr, hrest⟩ := Source.readFull_short hd h
  exact ⟨conn', by simp only [NetConn.readFull, hr], hrest⟩

/-- A stream that starts with a frame: its payload is read and the rest is left. -/
theorem readMessage_frame {conn : σ} {p r : List UInt8}
    (h : lengthHeader.next (fun _ => true) (rest conn) = some (p, r)) :
    ∃ conn', readMessage net conn = (.ok p, conn') ∧ rest conn' = r := by
  obtain ⟨hb, -, hs⟩ := HeaderCode.next_eq_some_iff.mp h
  obtain ⟨hlen, hu⟩ := uint32_of_declared (hs ▸ HeaderCode.declared_frame hb)
  obtain ⟨conn₁, hr₁, hrest₁⟩ := readFull_full hd hlen
  have hrest₁ : rest conn₁ = p ++ r := by
    rw [hrest₁, hs]
    exact @HeaderCode.drop_frame _ lengthHeader p r
  cases p with
  | nil =>
    refine ⟨conn₁, ?_, by simpa using hrest₁⟩
    have hzero : uint32 ((rest conn).take headerSize) = 0 :=
      BitVec.eq_of_toNat_eq (by simpa using hu)
    simp only [readMessage, hr₁, hzero, if_true]
  | cons b bs =>
    have hne := uint32_ne_zero (by rw [hu]; exact Nat.succ_pos _)
    have hbody : (b :: bs).length ≤ (rest conn₁).length := by simp [hrest₁]
    obtain ⟨conn₂, hr₂, hrest₂⟩ := readFull_full hd hbody
    rw [hrest₁] at hr₂ hrest₂
    refine ⟨conn₂, ?_, by rw [hrest₂, List.drop_left]⟩
    simp only [readMessage, hr₁, hne, if_false, hu, hr₂, List.take_left]

/-- A stream that does not start with a frame is read to its end, without a payload. -/
theorem readMessage_stop {conn : σ}
    (h : lengthHeader.next (fun _ => true) (rest conn) = none) :
    ∃ err conn', readMessage net conn = (.error err, conn') ∧ rest conn' = [] := by
  rcases HeaderCode.next_eq_none_iff.mp h with hdecl | ⟨d, hdecl, hshort⟩
  · have hlen : (rest conn).length < headerSize := HeaderCode.declared_eq_none_iff.mp hdecl
    obtain ⟨conn', hr, hrest⟩ := readFull_short hd hlen
    refine ⟨if (rest conn).isEmpty then .eof else .unexpectedEOF, conn', ?_, hrest⟩
    rw [readMessage, hr]
  · obtain ⟨hlen, hu⟩ := uint32_of_declared hdecl
    have hshort : ((rest conn).drop headerSize).length < d := hshort.resolve_left (by simp)
    obtain ⟨conn₁, hr₁, hrest₁⟩ := readFull_full hd hlen
    rw [← hrest₁, ← hu] at hshort
    have hne := uint32_ne_zero (Nat.zero_lt_of_lt hshort)
    obtain ⟨conn₂, hr₂, hrest₂⟩ := readFull_short hd hshort
    refine ⟨if (rest conn₁).isEmpty then .eof else .unexpectedEOF, conn₂, ?_, hrest₂⟩
    rw [readMessage, hr₁]
    simp only [hne, if_false, hr₂]

/-- Messages are received as the frames of the stream. -/
theorem readMessage_receives : lengthHeader.Receives (fun _ => true) (readMessage net) rest where
  frame := readMessage_frame hd
  stop {conn} h := by
    obtain ⟨err, conn', hr, hrest⟩ := readMessage_stop hd h
    refine ⟨err, conn', hr, ?_⟩
    rw [hrest, HeaderCode.unread]
    split <;> simp

end Stream

/-! ### A connection whose bytes arrive in segments -/

/-- The peer's bytes as they arrive and the bytes written so far. -/
structure Conn where
  incoming : List (List UInt8)
  outgoing : List UInt8

/-- The peer sends the segments and then closes; writes succeed. -/
def segmentConn : NetConn Conn where
  read conn n :=
    let r := Segments.read GoError.eof conn.incoming n
    (r.1, { conn with incoming := r.2 })
  ne_nil := by
    intro conn n l conn' hn h
    simp only [Prod.mk.injEq] at h
    exact (Segments.source UInt8 GoError.eof).ne_nil hn (Prod.ext h.1 rfl)
  length_le := by
    intro conn n l conn' h
    simp only [Prod.mk.injEq] at h
    exact (Segments.source UInt8 GoError.eof).length_le (Prod.ext h.1 rfl)
  write conn bytes := (none, { conn with outgoing := conn.outgoing ++ bytes })

theorem segmentConn_delivers :
    segmentConn.toSource.Delivers (fun conn => conn.incoming.flatten) GoError.eof where
  at_end conn n hn h := by
    obtain ⟨segs, hr, hrest⟩ := (Segments.source_delivers GoError.eof).at_end conn.incoming n hn h
    refine ⟨{ conn with incoming := segs }, ?_, hrest⟩
    simpa [segmentConn, Segments.source, Prod.ext_iff] using hr
  inside conn n hn h := by
    obtain ⟨l, segs, hr, hrest⟩ :=
      (Segments.source_delivers GoError.eof).inside conn.incoming n hn h
    refine ⟨l, { conn with incoming := segs }, ?_, hrest⟩
    simpa [segmentConn, Segments.source, Prod.ext_iff] using hr

theorem readMessage_outgoing (conn : Conn) :
    (readMessage segmentConn conn).2.outgoing = conn.outgoing :=
  readMessage_preserves (fun _ _ => rfl) conn

theorem writeMessage_segmentConn (conn : Conn) (payload : List UInt8) :
    writeMessage segmentConn conn payload =
      (none, { conn with outgoing := conn.outgoing ++ lengthHeader.frame payload }) := by
  cases payload with
  | nil => simp [writeMessage, segmentConn, putUint32_eq, HeaderCode.frame]
  | cons b bs => simp [writeMessage, segmentConn, putUint32_eq, HeaderCode.frame]

end ReversalBench.GoTcp
