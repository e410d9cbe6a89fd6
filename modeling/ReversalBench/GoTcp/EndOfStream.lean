import ReversalBench.GoTcp.Server

/-! What a Go reader makes of the end of a stream. The end may come on a message boundary,
inside a header, inside a body, or between the two; `io.ReadFull` reports it by how many
bytes the read in question saw. -/

namespace ReversalBench.GoTcp

open Tcp (lengthHeader lengthHeader_width)

/-- The bytes that `WriteMessage` writes for a payload. -/
def written (payload : List UInt8) : List UInt8 :=
  (writeMessage segmentConn ⟨[], []⟩ payload).2.outgoing

theorem written_eq (payload : List UInt8) : written payload = lengthHeader.frame payload := by
  rw [written, writeMessage_segmentConn, List.nil_append]

/-- A goroutine reports a graceful disconnect. -/
def Returned.graceful : Returned → Bool
  | .readFailed .eof => true
  | _ => false

/-- `ReadMessage` tells apart a complete frame, the end of the stream on a message boundary
and the end of the stream inside a frame, and so does the handler of the connection. -/
structure ClassifiesEnd (conn : Conn) : Prop where
  payload : ∀ p conn', readMessage segmentConn conn = (.ok p, conn') →
    p.length < 2 ^ 32 ∧ conn.incoming.flatten = written p ++ conn'.incoming.flatten
  complete : ∀ p r, p.length < 2 ^ 32 → conn.incoming.flatten = written p ++ r →
    (readMessage segmentConn conn).1 = .ok p
  boundary : (readMessage segmentConn conn).1 = .error .eof ↔ conn.incoming.flatten = []
  inside : conn.incoming.flatten ≠ [] →
    (∀ p r, p.length < 2 ^ 32 → conn.incoming.flatten ≠ written p ++ r) →
    ∃ err, err ≠ .eof ∧ (readMessage segmentConn conn).1 = .error err
  graceful : (∃ t why, Handling.next segmentConn (Handling.start conn) = some t ∧
    t.returned = some why ∧ why.graceful = true) ↔ conn.incoming.flatten = []

/-- The stream ends after a header that declares a body. -/
def EndsAfterHeader (stream : List UInt8) : Prop :=
  stream.length = headerSize ∧ uint32 stream ≠ 0

instance (stream : List UInt8) : Decidable (EndsAfterHeader stream) :=
  inferInstanceAs (Decidable (_ ∧ _))

variable {conn : Conn}

theorem next_iff {p r : List UInt8} :
    lengthHeader.next (fun _ => true) conn.incoming.flatten = some (p, r) ↔
      p.length < 2 ^ 32 ∧ conn.incoming.flatten = written p ++ r := by
  rw [HeaderCode.next_eq_some_iff, Tcp.lengthHeader_bound, written_eq]
  simp

/-! ### Streams without a complete frame -/

theorem short_eq_eof_iff {l : List UInt8} :
    (if l.isEmpty then GoError.eof else .unexpectedEOF) = .eof ↔ l = [] := by
  cases l <;> simp

/-- The end of the stream comes inside the header, or before it. -/
theorem readMessage_header (h : conn.incoming.flatten.length < headerSize) :
    (readMessage segmentConn conn).1 =
      .error (if conn.incoming.flatten.isEmpty then .eof else .unexpectedEOF) := by
  obtain ⟨conn', hr, -⟩ := readFull_short segmentConn_delivers h
  rw [readMessage, hr]

/-- The end of the stream comes inside the body, or before it. -/
theorem readMessage_body (hlen : headerSize ≤ conn.incoming.flatten.length)
    (h : (conn.incoming.flatten.drop headerSize).length <
      (uint32 (conn.incoming.flatten.take headerSize)).toNat) :
    (readMessage segmentConn conn).1 =
      .error
        (if (conn.incoming.flatten.drop headerSize).isEmpty then .eof else .unexpectedEOF) := by
  obtain ⟨conn₁, hr₁, hrest₁⟩ := readFull_full segmentConn_delivers hlen
  have hne := uint32_ne_zero (Nat.zero_lt_of_lt h)
  rw [← hrest₁] at h ⊢
  obtain ⟨conn₂, hr₂, -⟩ := readFull_short segmentConn_delivers h
  rw [readMessage, hr₁]
  simp only [hne, if_false, hr₂]

/-- Without a complete frame there is an error, and it is `io.EOF` on a message boundary
and after a header. -/
theorem readMessage_error
    (h : lengthHeader.next (fun _ => true) conn.incoming.flatten = none) :
    ∃ err, (readMessage segmentConn conn).1 = .error err ∧
      (err = .eof ↔ conn.incoming.flatten = [] ∨ EndsAfterHeader conn.incoming.flatten) := by
  rcases HeaderCode.next_eq_none_iff.mp h with hdecl | ⟨d, hdecl, hshort⟩
  · have hlen : conn.incoming.flatten.length < headerSize :=
      HeaderCode.declared_eq_none_iff.mp hdecl
    refine ⟨_, readMessage_header hlen, ?_⟩
    have hnot : ¬ EndsAfterHeader conn.incoming.flatten := fun hend => hlen.ne hend.1
    rw [or_iff_left hnot, short_eq_eof_iff]
  · obtain ⟨hlen, hu⟩ := uint32_of_declared hdecl
    have hshort := hshort.resolve_left (by simp)
    rw [lengthHeader_width, ← hu] at hshort
    refine ⟨_, readMessage_body hlen hshort, ?_⟩
    generalize conn.incoming.flatten = l at hlen hshort ⊢
    have hne : l ≠ [] := by
      rintro rfl
      exact absurd hlen (by decide)
    rw [or_iff_right hne, short_eq_eof_iff, List.drop_eq_nil_iff]
    constructor
    · intro hle
      have hheader := le_antisymm hle hlen
      rw [List.take_of_length_le hle] at hshort
      exact ⟨hheader, uint32_ne_zero (Nat.zero_lt_of_lt hshort)⟩
    · intro hend
      exact hend.1.le

/-! ### The end of the stream -/

/-- A stream that starts with a complete frame is neither empty nor a bare header. -/
theorem frame_not_end (p r : List UInt8) :
    ¬ (written p ++ r = [] ∨ EndsAfterHeader (written p ++ r)) := by
  have hlen : (written p ++ r).length = headerSize + p.length + r.length := by
    rw [written_eq, List.length_append, HeaderCode.length_frame]
    rfl
  have hsize : headerSize = 4 := rfl
  rintro (hnil | ⟨hend, hne⟩)
  · rw [hnil, List.length_nil] at hlen
    omega
  · have hp : p = [] := List.length_eq_zero_iff.mp (by omega)
    have hr : r = [] := List.length_eq_zero_iff.mp (by omega)
    subst hp hr
    exact hne (by decide)

theorem readMessage_eq_eof_iff :
    (readMessage segmentConn conn).1 = .error .eof ↔
      conn.incoming.flatten = [] ∨ EndsAfterHeader conn.incoming.flatten := by
  cases hn : lengthHeader.next (fun _ => true) conn.incoming.flatten with
  | none =>
    obtain ⟨err, hr, heof⟩ := readMessage_error hn
    rw [hr, ← heof, Except.error.injEq]
  | some pr =>
    obtain ⟨conn', hr, -⟩ := @readMessage_frame _ _ _ segmentConn_delivers conn pr.1 pr.2 hn
    refine iff_of_false (by simp [hr]) ?_
    rw [(next_iff.mp hn).2]
    exact frame_not_end pr.1 pr.2

/-- A payload is returned for a complete frame only, and the frame is what was read. -/
theorem readMessage_ok {p : List UInt8} {conn' : Conn}
    (h : readMessage segmentConn conn = (.ok p, conn')) :
    p.length < 2 ^ 32 ∧ conn.incoming.flatten = written p ++ conn'.incoming.flatten := by
  cases hn : lengthHeader.next (fun _ => true) conn.incoming.flatten with
  | none =>
    obtain ⟨err, hr, -⟩ := readMessage_error hn
    rw [h] at hr
    cases hr
  | some pr =>
    obtain ⟨conn'', hr, hrest⟩ := @readMessage_frame _ _ _ segmentConn_delivers conn pr.1 pr.2 hn
    cases h.symm.trans hr
    rw [hrest]
    exact next_iff.mp hn

/-- The handler reports a graceful disconnect when `ReadMessage` returns `io.EOF`. -/
theorem graceful_iff :
    (∃ t why, Handling.next segmentConn (Handling.start conn) = some t ∧
      t.returned = some why ∧ why.graceful = true) ↔
      (readMessage segmentConn conn).1 = .error .eof := by
  rcases hr : readMessage segmentConn conn with ⟨err | p, conn'⟩
  · have hnext : Handling.next segmentConn (Handling.start conn) =
        some ⟨conn', some (.readFailed err)⟩ := by
      simp only [Handling.next, Handling.start, hr]
    cases err <;> simp [hnext, Returned.graceful]
  · have hnext : Handling.next segmentConn (Handling.start conn) =
        some ⟨{ conn' with outgoing := conn'.outgoing ++ lengthHeader.frame p.reverse }, none⟩ := by
      simp only [Handling.next, Handling.start, hr, reverseBytesInPlace_eq,
        writeMessage_segmentConn]
    simp [hnext]

/-- The end of the stream is classified rightly on every stream and for every way of
cutting it, except where the stream ends after a header that declares a body: there
`io.ReadFull` sees no byte of the body, and the truncated frame passes for a graceful
disconnect. -/
theorem classifiesEnd_iff (conn : Conn) :
    ClassifiesEnd conn ↔ ¬ EndsAfterHeader conn.incoming.flatten := by
  constructor
  · intro h hend
    have hnil := h.boundary.mp (readMessage_eq_eof_iff.mpr (.inr hend))
    rw [hnil] at hend
    exact absurd hend.1 (by decide)
  · intro hend
    have heof : (readMessage segmentConn conn).1 = .error .eof ↔ conn.incoming.flatten = [] :=
      readMessage_eq_eof_iff.trans (or_iff_left hend)
    refine ⟨fun p conn' => readMessage_ok, fun p r hp hs => ?_, heof, fun hne hframe => ?_,
      graceful_iff.trans heof⟩
    · obtain ⟨conn', hr, -⟩ := readMessage_frame segmentConn_delivers (next_iff.mpr ⟨hp, hs⟩)
      rw [hr]
    · cases hn : lengthHeader.next (fun _ => true) conn.incoming.flatten with
      | none =>
        obtain ⟨err, hr, -⟩ := readMessage_error hn
        refine ⟨err, ?_, hr⟩
        rintro rfl
        exact hne (heof.mp hr)
      | some pr =>
        obtain ⟨hp, hs⟩ := next_iff.mp hn
        exact absurd hs (hframe pr.1 pr.2 hp)

/-- A header that declares one byte, and then the end of the stream. -/
theorem not_classifiesEnd : ¬ ClassifiesEnd ⟨[[0, 0, 0, 1]], []⟩ := by
  intro h
  have hnil := h.boundary.mp (by decide)
  cases hnil

end ReversalBench.GoTcp
