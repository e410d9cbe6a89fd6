import Mathlib.Data.List.Basic
import Mathlib.Algebra.Order.Group.Nat
import Mathlib.Data.PNat.Notation
import Mathlib.Data.PNat.Defs

/-! Files as the programs that read them meet them: a size, and for every read
what it delivers. An input file stream adds a position and the state bits that
a short read leaves behind. A file that nobody changes delivers the bytes at the
position, up to its end. -/

namespace ReversalBench

/-- The content of a file; its size is a file offset, a signed 64-bit number. -/
structure File where
  bytes : List UInt8
  length_lt : bytes.length < 2 ^ 63

/-- A buffer size: positive, and no larger than the largest size of a vector or slice. -/
structure ChunkSize where
  val : ℕ
  pos : 0 < val
  lt : val < 2 ^ 63

/-- A file on disk: the size it reports when it is opened, the bytes that read number
`t`, asking for `n` bytes at an offset, delivers, and whether a read that delivers
fewer bytes than it was asked for met an I/O error instead of the end of the file. -/
structure Disk where
  size : ℕ
  size_lt : size < 2 ^ 63
  deliver : (t offset n : ℕ) → List UInt8
  ioError : (t : ℕ) → Bool
  length_deliver_le : ∀ t offset n, (deliver t offset n).length ≤ n

/-- A file that stays unchanged and is read without errors, in full blocks. -/
def Disk.ofFile (f : File) : Disk where
  size := f.bytes.length
  size_lt := f.length_lt
  deliver _ offset n := (f.bytes.drop offset).take n
  ioError _ := false
  length_deliver_le _ _ n := List.length_take_le n _

@[simp] theorem Disk.size_ofFile (f : File) : (Disk.ofFile f).size = f.bytes.length := rfl

@[simp] theorem Disk.deliver_ofFile (f : File) (t offset n : ℕ) :
    (Disk.ofFile f).deliver t offset n = (f.bytes.drop offset).take n := rfl

@[simp] theorem Disk.ioError_ofFile (f : File) (t : ℕ) : (Disk.ofFile f).ioError t = false := rfl

/-- What read number `k` of `n` bytes delivers if all reads before it were full. -/
def Disk.chunk (disk : Disk) (n k : ℕ) : List UInt8 := disk.deliver k (k * n) n

theorem Disk.length_chunk_le (disk : Disk) (n k : ℕ) : (disk.chunk n k).length ≤ n :=
  disk.length_deliver_le _ _ _

/-- A file that stays unchanged and is read without errors, and reads that come short: read
number `t` delivers at most `sizes t` bytes, and at least one inside the file. -/
def Disk.inPieces (f : File) (sizes : ℕ → ℕ+) : Disk where
  size := f.bytes.length
  size_lt := f.length_lt
  deliver t offset n := (f.bytes.drop offset).take (min (sizes t) n)
  ioError _ := false
  length_deliver_le _ _ n := (List.length_take_le _ _).trans (min_le_right _ n)

@[simp] theorem Disk.size_inPieces (f : File) (sizes : ℕ → ℕ+) :
    (Disk.inPieces f sizes).size = f.bytes.length := rfl

@[simp] theorem Disk.deliver_inPieces (f : File) (sizes : ℕ → ℕ+) (t offset n : ℕ) :
    (Disk.inPieces f sizes).deliver t offset n = (f.bytes.drop offset).take (min (sizes t) n) := rfl

@[simp] theorem Disk.ioError_inPieces (f : File) (sizes : ℕ → ℕ+) (t : ℕ) :
    (Disk.inPieces f sizes).ioError t = false := rfl

/-- A `std::ifstream` opened on a file. -/
structure IfStream where
  disk : Disk
  reads : ℕ
  position : ℕ
  eofbit : Bool
  failbit : Bool
  badbit : Bool
  isOpen : Bool

namespace IfStream

def «open» (disk : Disk) : IfStream where
  disk
  reads := 0
  position := 0
  eofbit := false
  failbit := false
  badbit := false
  isOpen := true

def eof (s : IfStream) : Bool := s.eofbit

def fail (s : IfStream) : Bool := s.failbit || s.badbit

/-- `read(buffer, n)`: the bytes put into the buffer (`gcount` of them) and the stream.
A stream that is not good delivers nothing. A short read ends at the end of the file
or at an I/O error. -/
def read (s : IfStream) (n : ℕ) : List UInt8 × IfStream :=
  if s.eofbit || s.failbit || s.badbit then
    ([], { s with failbit := true })
  else
    let bytes := s.disk.deliver s.reads s.position n
    let short := decide (bytes.length < n)
    let broken := short && s.disk.ioError s.reads
    (bytes, { s with
      reads := s.reads + 1
      position := s.position + bytes.length
      eofbit := short && !broken
      failbit := short && !broken
      badbit := broken })

/-- `clear()`. -/
def clear (s : IfStream) : IfStream :=
  { s with eofbit := false, failbit := false, badbit := false }

/-- `seekg(position)`: the end of the file is forgotten, and a stream that has not failed
moves. -/
def seekg (s : IfStream) (position : ℕ) : IfStream :=
  let s := { s with eofbit := false }
  if s.fail then s else { s with position }

/-- The stream is open and no state bit is set. -/
structure Good (s : IfStream) : Prop where
  isOpen : s.isOpen = true
  eofbit : s.eofbit = false
  failbit : s.failbit = false
  badbit : s.badbit = false

theorem good_open (disk : Disk) : (IfStream.open disk).Good := ⟨rfl, rfl, rfl, rfl⟩

/-- A state bit stops the stream. -/
def Bad (s : IfStream) : Prop := (s.eofbit || s.failbit || s.badbit) = true

theorem read_of_bad {s : IfStream} (h : s.Bad) (n : ℕ) : (s.read n).1 = [] := by
  unfold Bad at h
  rw [read, if_pos h]

theorem read_fst {s : IfStream} (h : s.Good) (n : ℕ) :
    (s.read n).1 = s.disk.deliver s.reads s.position n := by
  simp [read, h.eofbit, h.failbit, h.badbit]

@[simp] theorem read_disk (s : IfStream) (n : ℕ) : (s.read n).2.disk = s.disk := by
  unfold read; split <;> rfl

@[simp] theorem read_isOpen (s : IfStream) (n : ℕ) : (s.read n).2.isOpen = s.isOpen := by
  unfold read; split <;> rfl

theorem read_reads {s : IfStream} (h : s.Good) (n : ℕ) :
    (s.read n).2.reads = s.reads + 1 := by
  simp [read, h.eofbit, h.failbit, h.badbit]

theorem read_position (s : IfStream) (n : ℕ) :
    (s.read n).2.position = s.position + (s.read n).1.length := by
  unfold read; split <;> rfl

/-- A full read leaves the stream good. -/
theorem read_good {s : IfStream} (h : s.Good) {n : ℕ} (hn : (s.read n).1.length = n) :
    (s.read n).2.Good := by
  have hbytes := read_fst h n ▸ hn
  have hshort : ¬ (s.disk.deliver s.reads s.position n).length < n := by omega
  constructor <;> simp [read, h.isOpen, h.eofbit, h.failbit, h.badbit, hshort]

/-- A short read sets a state bit. -/
theorem read_bad {s : IfStream} (h : s.Good) {n : ℕ} (hn : (s.read n).1.length < n) :
    (s.read n).2.Bad := by
  rw [read_fst h] at hn
  cases hio : s.disk.ioError s.reads <;>
    simp [Bad, read, h.eofbit, h.failbit, h.badbit, hn, hio]

/-! ### Going back to the start -/

/-- Cleared first, the stream moves whatever state it was in. -/
theorem seekg_clear (s : IfStream) (position : ℕ) :
    s.clear.seekg position =
      { s with position, eofbit := false, failbit := false, badbit := false } := rfl

/-- The streams differ at most in the number of reads they have served. -/
def Alike (s t : IfStream) : Prop := ∃ n, t = { s with reads := n }

/-- The next read does not depend on how many there were, if the file stays unchanged. -/
theorem Alike.read {s t : IfStream} {f : File} (h : s.Alike t) (hdisk : s.disk = Disk.ofFile f)
    (n : ℕ) : (s.read n).1 = (t.read n).1 ∧ (s.read n).2.Alike (t.read n).2 := by
  obtain ⟨m, rfl⟩ := h
  unfold IfStream.read
  rw [hdisk]
  dsimp only
  split
  · exact ⟨rfl, m, rfl⟩
  · exact ⟨rfl, m + 1, rfl⟩

end IfStream

end ReversalBench
