import ReversalBench.Lib.LengthPrefixed
import ReversalBench.Lib.Source
import ReversalBench.Lib.InputFile
import Mathlib.Data.Vector.Basic

/-! Framing in the C++ benchmark (`tcp_messaging.hpp`): a 32-bit length in network
order in front of every payload. The host may have either byte order. Socket
operations are the composed operations of the library: a read fills its buffer or
fails, a write sends its whole buffer sequence. The reversal of a payload
(`reversal_utils.hpp`) is `std::reverse` on a vector, in place or on a copy. -/

namespace ReversalBench.Tcp

open ByteOrder (big)

/-- `sizeof(uint32_t)`. -/
def headerSize : ℕ := 4

/-- A 32-bit length in network order. -/
def lengthHeader : HeaderCode UInt8 := HeaderCode.bigEndian headerSize (by decide)

@[simp] theorem lengthHeader_width : lengthHeader.width = headerSize := rfl

theorem lengthHeader_bound : lengthHeader.bound = 2 ^ 32 := by
  simp [lengthHeader, HeaderCode.bigEndian, headerSize]

def htonl (host : ByteOrder) (w : BitVec 32) : BitVec 32 :=
  BitVec.ofNat 32 (host.network headerSize w.toNat)

def ntohl (host : ByteOrder) (w : BitVec 32) : BitVec 32 :=
  BitVec.ofNat 32 (host.network headerSize w.toNat)

/-- `std::array<char, HEADER_SIZE>`. -/
abbrev HeaderBuffer := List.Vector UInt8 headerSize

/-- The header buffer and the buffer sequence to send. The length is cast to
`uint32_t`, and the host's representation of the converted word is copied. -/
def prepareMessage (host : ByteOrder) (payload : List UInt8) :
    HeaderBuffer × List (List UInt8) :=
  let payloadSizeNet := htonl host (BitVec.ofNat 32 payload.length)
  let headerBuffer : HeaderBuffer :=
    ⟨host.store headerSize payloadSizeNet.toNat, host.length_store headerSize _⟩
  (headerBuffer, if payload.isEmpty then [headerBuffer.val] else [headerBuffer.val, payload])

/-- The length in a header buffer. -/
def parseHeader (host : ByteOrder) (headerBuffer : HeaderBuffer) : BitVec 32 :=
  ntohl host (BitVec.ofNat 32 (host.load headerBuffer.val))

/-- The declared lengths that the readers accept, up to twice the chunk size. -/
def accepts (chunkSize : ChunkSize) (d : ℕ) : Bool := decide (d ≤ chunkSize.val * 2)

theorem accepts_of_le {chunkSize : ChunkSize} {d : ℕ} (h : d ≤ chunkSize.val) :
    accepts chunkSize d = true := decide_eq_true (by omega)

def reverseVectorContent (data : List UInt8) : List UInt8 := data.reverse

def getReversedVectorContent (data : List UInt8) : List UInt8 := data.reverse

/-! ### The same bytes on every host -/

theorem pow_headerSize : 256 ^ headerSize = 2 ^ 32 := by norm_num [headerSize]

theorem store_htonl (host : ByteOrder) (n : ℕ) :
    host.store headerSize (htonl host (BitVec.ofNat 32 n)).toNat = big.store headerSize n := by
  have hlt : host.network headerSize (n % 2 ^ 32) < 2 ^ 32 :=
    pow_headerSize ▸ host.network_lt (Nat.mod_lt _ (Nat.pow_pos (by decide)))
  rw [htonl, BitVec.toNat_ofNat, BitVec.toNat_ofNat, Nat.mod_eq_of_lt hlt, ByteOrder.store_network,
    ← pow_headerSize, ByteOrder.store_mod]

/-- A prepared message is a frame. -/
theorem prepareMessage_flatten (host : ByteOrder) (payload : List UInt8) :
    (prepareMessage host payload).2.flatten = lengthHeader.frame payload := by
  have henc : ∀ n, lengthHeader.enc n = big.store headerSize n := fun _ => rfl
  cases payload with
  | nil => simp [prepareMessage, store_htonl, HeaderCode.frame, henc]
  | cons b bs => simp [prepareMessage, store_htonl, HeaderCode.frame, henc]

/-- A header buffer is read as the length it declares. -/
theorem parseHeader_toNat (host : ByteOrder) (headerBuffer : HeaderBuffer) :
    (parseHeader host headerBuffer).toNat = lengthHeader.dec headerBuffer.val := by
  have hlt := host.load_lt headerBuffer.val
  have hbig := big.load_lt headerBuffer.val
  have hnet := host.network_load headerBuffer.val
  rw [headerBuffer.property] at hlt hbig hnet
  rw [pow_headerSize] at hlt hbig
  rw [parseHeader, ntohl, BitVec.toNat_ofNat, BitVec.toNat_ofNat, Nat.mod_eq_of_lt hlt, hnet,
    Nat.mod_eq_of_lt hbig]
  rfl

/-! ### Socket operations -/

/-- What a handler is told about its operation. -/
inductive ErrorCode where
  | success | eof | operationAborted | other
  deriving DecidableEq

/-- The peer's bytes as they arrive; `eof` after the last of them. -/
def incoming : Source (List (List UInt8)) ErrorCode UInt8 := Segments.source UInt8 ErrorCode.eof

theorem incoming_delivers : incoming.Delivers List.flatten ErrorCode.eof :=
  Segments.source_delivers ErrorCode.eof

/-- A finished read: the code for the handler, the number of bytes transferred, the
buffer and the input that is left. -/
structure Received (β : Type*) where
  ec : ErrorCode
  lengthRead : ℕ
  buffer : β
  input : List (List UInt8)

/-- `async_read` into a buffer that it has to fill. Bytes of the buffer that are not
overwritten stay as they were. -/
def asyncRead (buffer : List UInt8) (input : List (List UInt8)) : Received (List UInt8) :=
  let r := incoming.readFull buffer.length input
  { ec := r.2.1.getD .success
    lengthRead := r.1.length
    buffer := r.1 ++ buffer.drop r.1.length
    input := r.2.2 }

@[simp] theorem length_asyncRead_buffer (buffer : List UInt8) (input : List (List UInt8)) :
    (asyncRead buffer input).buffer.length = buffer.length := by
  have := Source.length_readFull_le (S := incoming) buffer.length input
  simp only [asyncRead, List.length_append, List.length_drop]
  omega

/-- `async_read_header`: fill the header buffer. -/
def asyncReadHeader (headerBuffer : HeaderBuffer) (input : List (List UInt8)) :
    Received HeaderBuffer :=
  let r := asyncRead headerBuffer.val input
  { r with buffer := ⟨r.buffer, (length_asyncRead_buffer _ _).trans headerBuffer.property⟩ }

theorem asyncRead_full {buffer : List UInt8} {input : List (List UInt8)}
    (h : buffer.length ≤ input.flatten.length) :
    ∃ input', asyncRead buffer input =
        ⟨.success, buffer.length, input.flatten.take buffer.length, input'⟩ ∧
      input'.flatten = input.flatten.drop buffer.length := by
  obtain ⟨input', hr, hrest⟩ := Source.readFull_full incoming_delivers h
  refine ⟨input', ?_, hrest⟩
  simp only [asyncRead, hr, Option.getD_none, List.length_take, Nat.min_eq_left h,
    List.drop_length, List.append_nil]

theorem asyncRead_short {buffer : List UInt8} {input : List (List UInt8)}
    (h : input.flatten.length < buffer.length) :
    ∃ input', asyncRead buffer input = ⟨.eof, input.flatten.length,
        input.flatten ++ buffer.drop input.flatten.length, input'⟩ ∧ input'.flatten = [] := by
  obtain ⟨input', hr, hrest⟩ := Source.readFull_short incoming_delivers h
  refine ⟨input', ?_, hrest⟩
  simp only [asyncRead, hr, Option.getD_some]

/-- A complete header is read, and the buffer then holds the length it declares. -/
theorem asyncReadHeader_full (host : ByteOrder) (headerBuffer : HeaderBuffer)
    {input : List (List UInt8)} {d : ℕ} (h : lengthHeader.declared input.flatten = some d) :
    ∃ buffer input', asyncReadHeader headerBuffer input = ⟨.success, headerSize, buffer, input'⟩ ∧
      (parseHeader host buffer).toNat = d ∧ input'.flatten = input.flatten.drop headerSize := by
  obtain ⟨hle, hdec⟩ := HeaderCode.declared_eq_some_iff.mp h
  have hw : headerSize ≤ input.flatten.length := hle
  obtain ⟨input', hr, hrest⟩ := asyncRead_full (headerBuffer.property.trans_le hw)
  rw [headerBuffer.property] at hr hrest
  refine ⟨⟨input.flatten.take headerSize, List.length_take_of_le hw⟩, input', ?_, ?_, hrest⟩
  · simp only [asyncReadHeader, hr]
  · exact (parseHeader_toNat host _).trans hdec

/-- An incomplete header uses up the input. -/
theorem asyncReadHeader_short (headerBuffer : HeaderBuffer) {input : List (List UInt8)}
    (h : lengthHeader.declared input.flatten = none) :
    ∃ n buffer input', asyncReadHeader headerBuffer input = ⟨.eof, n, buffer, input'⟩ ∧
      input'.flatten = [] := by
  have hshort : input.flatten.length < headerBuffer.val.length := by
    rw [headerBuffer.property]
    exact HeaderCode.declared_eq_none_iff.mp h
  obtain ⟨input', hr, hrest⟩ := asyncRead_short hshort
  refine ⟨input.flatten.length, ⟨input.flatten ++ headerBuffer.val.drop input.flatten.length, ?_⟩,
    input', ?_, hrest⟩
  · have hlen := headerBuffer.property
    rw [List.length_append, List.length_drop]
    omega
  · simp only [asyncReadHeader, hr]

/-- `vector::resize`. -/
def resize (buffer : List UInt8) (n : ℕ) : List UInt8 :=
  buffer.take n ++ List.replicate (n - buffer.length) 0

@[simp] theorem length_resize (buffer : List UInt8) (n : ℕ) : (resize buffer n).length = n := by
  simp [resize]; omega

end ReversalBench.Tcp
