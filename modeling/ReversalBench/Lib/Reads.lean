import ReversalBench.Lib.Blocks
import ReversalBench.Lib.InputFile
import Mathlib.Data.Nat.Find

/-! What the reads of a disk deliver, one after the other, each of them where the one before
it ended. A reader that takes a short read for the end of the file stops at the first of
them; the file that it has seen then need not be the one it was opened on. -/

namespace ReversalBench

namespace Disk

variable (disk : Disk) (n : ℕ)

/-- Where read number `k` of `n` bytes begins. -/
def offset : ℕ → ℕ
  | 0 => 0
  | k + 1 => offset k + (disk.deliver k (offset k) n).length

/-- What read number `k` of `n` bytes delivers. -/
def part (k : ℕ) : List UInt8 := disk.deliver k (disk.offset n k) n

/-- What the first `m` reads deliver. -/
def parts (m : ℕ) : List (List UInt8) := (List.range m).map (disk.part n)

/-- `total` bytes are a whole file of the size that it had when it was opened, and of the
size that it has to have. -/
structure Whole (target total : ℕ) : Prop where
  size : disk.size ≤ total
  target : target ≤ total

/-- Read number `k` is the first that comes short. -/
structure FirstShort (k : ℕ) : Prop where
  full : ∀ i < k, (disk.part n i).length = n
  short : (disk.part n k).length < n

/-- A read comes short, and what has been read by then is not the whole file. -/
def EndsEarly (target : ℕ) : Prop :=
  ∃ k, disk.FirstShort n k ∧ ¬ disk.Whole target (disk.offset n (k + 1))

/-- Read number `k` is made, and it delivers something. -/
def Reads (k : ℕ) : Prop := (∀ i < k, (disk.part n i).length = n) ∧ disk.part n k ≠ []

/-- What the reads deliver, up to the first that comes short. -/
def Yields (f : File) : Prop :=
  ∃ k, disk.FirstShort n k ∧ f.bytes = (disk.parts n (k + 1)).flatten

/-! ### One read after the other -/

theorem offset_succ (k : ℕ) :
    disk.offset n (k + 1) = disk.offset n k + (disk.part n k).length := rfl

theorem length_part_le (k : ℕ) : (disk.part n k).length ≤ n := disk.length_deliver_le _ _ _

@[simp] theorem length_parts (m : ℕ) : (disk.parts n m).length = m := by simp [parts]

theorem parts_succ (m : ℕ) : disk.parts n (m + 1) = disk.parts n m ++ [disk.part n m] := by
  simp [parts, List.range_succ]

theorem length_flatten_parts (m : ℕ) : (disk.parts n m).flatten.length = disk.offset n m := by
  induction m with
  | zero => rfl
  | succ m ih => rw [parts_succ, List.flatten_append, List.length_append, ih, offset_succ]; simp

theorem offset_mono {j k : ℕ} (h : j ≤ k) : disk.offset n j ≤ disk.offset n k := by
  induction h with
  | refl => exact le_rfl
  | step _ ih => exact ih.trans (Nat.le_add_right _ _)

variable {disk n} {k : ℕ} {target : ℕ}

theorem offset_of_full (h : ∀ i < k, (disk.part n i).length = n) :
    disk.offset n k = k * n := by
  induction k with
  | zero => rw [Nat.zero_mul]; rfl
  | succ k ih =>
    rw [offset_succ, ih fun i hi => h i (Nat.lt_succ_of_lt hi), h k (Nat.lt_succ_self k),
      Nat.succ_mul]

/-- After full reads the next one begins at a multiple of the size. -/
theorem part_of_full (h : ∀ i < k, (disk.part n i).length = n) :
    disk.part n k = disk.chunk n k := by
  rw [part, offset_of_full h, chunk]

theorem full_succ (h : ∀ i < k, (disk.part n i).length = n) (hk : (disk.part n k).length = n) :
    ∀ i < k + 1, (disk.part n i).length = n := by
  intro i hi
  rcases Nat.lt_succ_iff_lt_or_eq.mp hi with hlt | rfl
  · exact h i hlt
  · exact hk

/-! ### The first read that comes short -/

theorem FirstShort.unique {j : ℕ} (hj : disk.FirstShort n j) (hk : disk.FirstShort n k) :
    j = k := by
  rcases lt_trichotomy j k with hlt | heq | hgt
  · exact absurd (hk.full j hlt) hj.short.ne
  · exact heq
  · exact absurd (hj.full k hgt) hk.short.ne

/-- Whether the reads end early is decided by the first that comes short. -/
theorem FirstShort.endsEarly_iff (h : disk.FirstShort n k) :
    disk.EndsEarly n target ↔ ¬ disk.Whole target (disk.offset n (k + 1)) := by
  constructor
  · rintro ⟨j, hj, hpart⟩
    rwa [hj.unique h] at hpart
  · exact fun hpart => ⟨k, h, hpart⟩

/-- Full reads of the whole file do not end early. -/
theorem not_endsEarly_of_full (h : ∀ i < k, (disk.part n i).length = n)
    (hwhole : disk.Whole target (disk.offset n k)) : ¬ disk.EndsEarly n target := by
  rintro ⟨j, hj, hpart⟩
  rcases Nat.lt_or_ge j k with hlt | hge
  · exact absurd (h j hlt) hj.short.ne
  · have hle := disk.offset_mono n (Nat.le_succ_of_le hge)
    exact hpart ⟨hwhole.size.trans hle, hwhole.target.trans hle⟩

/-! ### The file that the reads yield -/

variable {f : File}

theorem parts_add (disk : Disk) (n k m : ℕ) :
    disk.parts n (k + m) =
      disk.parts n k ++ (List.range m).map fun i => disk.part n (k + i) := by
  rw [parts, List.range_add, List.map_append, List.map_map]
  rfl

theorem Yields.length_eq (h : disk.FirstShort n k)
    (hf : f.bytes = (disk.parts n (k + 1)).flatten) :
    f.bytes.length = k * n + (disk.part n k).length := by
  rw [hf, length_flatten_parts, offset_succ, offset_of_full h.full]

/-- A read that is made delivers the bytes of the file that are due. -/
theorem Yields.part_eq (h : disk.Yields n f) (hk : k * n ≤ f.bytes.length) :
    disk.offset n k = k * n ∧ disk.part n k = (f.bytes.drop (k * n)).take n := by
  obtain ⟨j, hj, hf⟩ := h
  have hlen := Yields.length_eq hj hf
  have hshort := hj.short
  have hle : k ≤ j := by
    by_contra hlt
    have := Nat.mul_le_mul_right n (Nat.succ_le_of_lt (not_le.mp hlt))
    rw [Nat.succ_mul] at this
    omega
  have hfull : ∀ i < k, (disk.part n i).length = n := fun i hi => hj.full i (by omega)
  have hoffset := offset_of_full hfull
  refine ⟨hoffset, ?_⟩
  obtain ⟨m, rfl⟩ := Nat.exists_eq_add_of_le hle
  have hdrop : f.bytes.drop (k * n) =
      ((List.range (m + 1)).map fun i => disk.part n (k + i)).flatten := by
    rw [hf, Nat.add_assoc, parts_add, List.flatten_append, ← hoffset, ← length_flatten_parts,
      List.drop_left]
  rw [hdrop, List.range_succ_eq_map, List.map_cons, List.flatten_cons, Nat.add_zero]
  cases m with
  | zero => simp [List.take_of_length_le (length_part_le disk n k)]
  | succ m => rw [List.take_left' (hj.full k (by omega))]

theorem Yields.reads_iff (hn : 0 < n) (h : disk.Yields n f) :
    disk.Reads n k ↔ k < (Blocks.blocks n f.bytes).length := by
  rw [Blocks.length_blocks, Blocks.lt_count_iff hn]
  constructor
  · rintro ⟨hfull, hne⟩
    obtain ⟨j, hj, hf⟩ := h
    have hlen := Yields.length_eq hj hf
    have hpos := List.length_pos_of_ne_nil hne
    rcases lt_trichotomy k j with hlt | rfl | hgt
    · have := Nat.mul_le_mul_right n (Nat.succ_le_of_lt hlt)
      rw [Nat.succ_mul] at this
      omega
    · omega
    · exact absurd (hfull j hgt) hj.short.ne
  · intro hlt
    refine ⟨fun i hi => ?_, ?_⟩
    · have := Nat.mul_le_mul_right n (Nat.succ_le_of_lt hi)
      rw [Nat.succ_mul] at this
      rw [(h.part_eq (by omega)).2, List.length_take, List.length_drop]
      omega
    · rw [(h.part_eq hlt.le).2, ← List.length_pos_iff_ne_nil, List.length_take, List.length_drop]
      omega

theorem Yields.getElem_blocks (hn : 0 < n) (h : disk.Yields n f)
    (hk : k < (Blocks.blocks n f.bytes).length) :
    (Blocks.blocks n f.bytes)[k] = disk.part n k := by
  have hlt : k * n < f.bytes.length := by
    rwa [Blocks.length_blocks, Blocks.lt_count_iff hn] at hk
  rw [Blocks.getElem_blocks, (h.part_eq hlt.le).2]

/-- The reads end early if they yield less than the whole file. -/
theorem Yields.endsEarly_iff (h : disk.Yields n f) :
    disk.EndsEarly n target ↔ ¬ disk.Whole target f.bytes.length := by
  obtain ⟨k, hk, hf⟩ := h
  rw [hk.endsEarly_iff, hf, length_flatten_parts]

end Disk

/-- The reads yield one file only. -/
theorem Disk.Yields.unique {disk : Disk} {n : ℕ} {f g : File} (hf : disk.Yields n f)
    (hg : disk.Yields n g) : f = g := by
  obtain ⟨j, hj, hbytes⟩ := hf
  obtain ⟨k, hk, hbytes'⟩ := hg
  obtain rfl := hj.unique hk
  cases f
  cases g
  congr 1
  exact hbytes.trans hbytes'.symm

/-- A disk whose offsets are signed 64-bit numbers: nothing is read beyond the largest. -/
structure AddressableDisk extends Disk where
  end_lt : ∀ t offset n, deliver t offset n ≠ [] → offset + (deliver t offset n).length < 2 ^ 63

namespace AddressableDisk

variable (disk : AddressableDisk) (chunkSize : ChunkSize)

theorem offset_lt (n k : ℕ) : disk.offset n k < 2 ^ 63 := by
  induction k with
  | zero => exact Nat.two_pow_pos 63
  | succ k ih =>
    by_cases hpart : disk.part n k = []
    · rwa [Disk.offset_succ, hpart]
    · exact disk.end_lt _ _ _ hpart

/-- A read comes short at last. -/
theorem exists_short : ∃ k, (disk.part chunkSize.val k).length < chunkSize.val := by
  by_contra hfull
  have hfull : ∀ k, (disk.part chunkSize.val k).length = chunkSize.val := fun k =>
    le_antisymm (disk.length_part_le _ k) (not_lt.mp fun hlt => hfull ⟨k, hlt⟩)
  have hlt := disk.offset_lt chunkSize.val (2 ^ 63)
  rw [Disk.offset_of_full fun i _ => hfull i] at hlt
  have := Nat.le_mul_of_pos_right (2 ^ 63) chunkSize.pos
  omega

/-- The number of the first read that comes short. -/
def firstShort : ℕ := Nat.find (disk.exists_short chunkSize)

/-- The file that is seen by a reader that takes a short read for the end. -/
def yielded : File where
  bytes := (disk.parts chunkSize.val (disk.firstShort chunkSize + 1)).flatten
  length_lt := by
    rw [Disk.length_flatten_parts]
    exact disk.offset_lt _ _

/-- A file that stays unchanged. -/
def ofFile (f : File) : AddressableDisk where
  toDisk := Disk.ofFile f
  end_lt t offset n hne := by
    have hpos := List.length_pos_of_ne_nil hne
    have hlt := f.length_lt
    rw [Disk.deliver_ofFile, List.length_take, List.length_drop] at hpos ⊢
    omega

end AddressableDisk

end ReversalBench
