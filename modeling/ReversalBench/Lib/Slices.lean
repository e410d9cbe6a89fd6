import Mathlib.Data.Int.Notation
import Mathlib.Data.List.Basic
import Mathlib.Data.Nat.Notation

/-! Slices of a memory of arrays. A slice is a window on one array; several slices may show
the same elements. Reading and overwriting what a slice shows obey the laws of a
view: what was written is read, writing what was read changes nothing, the last of two
writes counts, and what the slice does not show is left alone. Stores of single elements are such
writes, so a program on slices is a program on the lists they show. -/

namespace ReversalBench

/-- The arrays at the addresses `0`, `1`, and so on. Their lengths never change. -/
structure Memory (α : Type*) where
  arrays : List (List α)
  deriving DecidableEq

/-- A window of `len` elements on the array at the address `array`. -/
structure Slice where
  array : ℕ
  offset : ℕ
  len : ℕ
  deriving DecidableEq

namespace Memory

variable {α : Type*} (m : Memory α)

/-- The array at an address; where nothing was allocated it is empty. -/
def array (a : ℕ) : List α := m.arrays[a]?.getD []

/-- The elements that a slice shows. -/
def contents (s : Slice) : List α := ((m.array s.array).drop s.offset).take s.len

/-- `s[i]`, or a panic. -/
def load (s : Slice) (i : ℤ) : Option α :=
  if 0 ≤ i ∧ i < s.len then (m.array s.array)[s.offset + i.toNat]? else none

/-- `s[i] = x`, or a panic. -/
def store (s : Slice) (i : ℤ) (x : α) : Option (Memory α) :=
  if 0 ≤ i ∧ i < s.len then
    some ⟨m.arrays.modify s.array fun array => array.set (s.offset + i.toNat) x⟩
  else none

/-- A slice of a new array of `n` elements. -/
def make (zero : α) (n : ℕ) : Slice × Memory α :=
  (⟨m.arrays.length, 0, n⟩, ⟨m.arrays ++ [List.replicate n zero]⟩)

/-- The elements from the start of the slice on become those of `l`. -/
def write (s : Slice) (l : List α) : Memory α :=
  ⟨m.arrays.modify s.array fun array =>
    array.take s.offset ++ l ++ array.drop (s.offset + l.length)⟩

/-- As many elements of `src` as `dst` has room for. All are read before the first is written. -/
def copy (dst src : Slice) : Memory α := m.write dst ((m.contents src).take dst.len)

end Memory

namespace Slice

variable {α : Type*}

/-- The window does not reach beyond its array. -/
def Within (s : Slice) (m : Memory α) : Prop := s.offset + s.len ≤ (m.array s.array).length

instance (s : Slice) (m : Memory α) : Decidable (s.Within m) := inferInstanceAs (Decidable (_ ≤ _))

/-- No element is shown by both. -/
def Disjoint (s t : Slice) : Prop :=
  s.array ≠ t.array ∨ s.offset + s.len ≤ t.offset ∨ t.offset + t.len ≤ s.offset

end Slice

namespace Memory

variable {α : Type*} {m : Memory α} {s t : Slice} {l l' : List α}

theorem array_eq_nil {a : ℕ} (h : m.arrays.length ≤ a) : m.array a = [] := by
  rw [array, List.getElem?_eq_none h]
  rfl

/-- Only an empty slice stands where nothing was allocated. -/
theorem allocated_or_empty (h : s.Within m) :
    s.array < m.arrays.length ∨ s.offset = 0 ∧ s.len = 0 := by
  by_cases ha : s.array < m.arrays.length
  · exact Or.inl ha
  · rw [Slice.Within, array_eq_nil (by omega), List.length_nil] at h
    exact Or.inr (by omega)

theorem length_take_offset (h : s.Within m) :
    ((m.array s.array).take s.offset).length = s.offset := by
  rw [Slice.Within] at h
  rw [List.length_take]
  omega

theorem length_contents (h : s.Within m) : (m.contents s).length = s.len := by
  rw [Slice.Within] at h
  rw [contents, List.length_take, List.length_drop]
  omega

/-- What stands before the slice, in it and after it. -/
theorem array_eq (s : Slice) :
    m.array s.array = (m.array s.array).take s.offset ++ m.contents s ++
      (m.array s.array).drop (s.offset + s.len) := by
  rw [contents, List.append_assoc, ← List.drop_drop, List.take_append_drop,
    List.take_append_drop]

/-- Two changes of the array at one address are one change if they agree on that array. -/
theorem modify_congr {a : ℕ} {f g : List α → List α} (h : f (m.array a) = g (m.array a)) :
    m.arrays.modify a f = m.arrays.modify a g := by
  refine List.ext_getElem? fun b => ?_
  rw [List.getElem?_modify, List.getElem?_modify]
  by_cases hab : a = b
  · subst hab
    rw [array] at h
    cases hm : m.arrays[a]? with
    | none => rfl
    | some array => simpa [hm] using h
  · simp only [if_neg hab]

theorem write_array_ne {a : ℕ} (h : s.array ≠ a) : (m.write s l).array a = m.array a := by
  rw [array, write, List.getElem?_modify_ne _ _ h, array]

theorem write_array (h : s.Within m) (hl : l.length = s.len) :
    (m.write s l).array s.array = (m.array s.array).take s.offset ++ l ++
      (m.array s.array).drop (s.offset + s.len) := by
  rw [array, write, List.getElem?_modify_eq, hl, array]
  cases ha : m.arrays[s.array]? with
  | some array => rfl
  | none =>
    obtain ha' | ⟨-, hlen⟩ := allocated_or_empty h
    · rw [List.getElem?_eq_getElem ha'] at ha
      cases ha
    · have hnil : l = [] := List.length_eq_zero_iff.mp (hl.trans hlen)
      simp [hnil]

theorem length_write_array (h : s.Within m) (hl : l.length = s.len) (a : ℕ) :
    ((m.write s l).array a).length = (m.array a).length := by
  by_cases ha : s.array = a
  · subst ha
    rw [Slice.Within] at h
    rw [write_array h hl, List.length_append, List.length_append, List.length_take,
      List.length_drop]
    omega
  · rw [write_array_ne ha]

/-- A write keeps every window. -/
theorem within_write (h : s.Within m) (hl : l.length = s.len) :
    t.Within (m.write s l) ↔ t.Within m := by
  rw [Slice.Within, length_write_array h hl, Slice.Within]

/-- What was written is read. -/
theorem contents_write (h : s.Within m) (hl : l.length = s.len) :
    (m.write s l).contents s = l := by
  have hpre := length_take_offset h
  rw [contents, write_array h hl, List.append_assoc, List.drop_left' hpre, List.take_left' hl]

/-- Writing what was read changes nothing. -/
theorem write_contents (h : s.Within m) : m.write s (m.contents s) = m := by
  have hsame : m.arrays.modify s.array (fun array => array.take s.offset ++ m.contents s ++
      array.drop (s.offset + (m.contents s).length)) = m.arrays.modify s.array id := by
    refine modify_congr ?_
    rw [length_contents h]
    exact (array_eq s).symm
  rw [write, hsame, List.modify_id]

/-- The last of two writes counts. -/
theorem write_write (h : s.Within m) (hl : l.length = s.len) (hl' : l'.length = s.len) :
    (m.write s l).write s l' = m.write s l' := by
  simp only [write, List.modify_modify_eq, hl, hl', mk.injEq]
  refine modify_congr ?_
  have hpre := length_take_offset h
  have hfront : ((m.array s.array).take s.offset ++ l).length = s.offset + s.len := by
    rw [List.length_append, hpre, hl]
  simp only [Function.comp_apply]
  rw [List.drop_left' hfront, List.append_assoc _ l, List.take_left' hpre]

/-- What a slice shows that has no element in common stays. -/
theorem contents_write_of_disjoint (h : s.Within m) (hl : l.length = s.len) (hd : s.Disjoint t) :
    (m.write s l).contents t = m.contents t := by
  by_cases ha : s.array = t.array
  · rw [Slice.Within] at h
    have hrange : s.offset + s.len ≤ t.offset ∨ t.offset + t.len ≤ s.offset :=
      hd.resolve_left fun hne => hne ha
    have harray := write_array h hl
    rw [contents, contents, ← ha, harray]
    refine List.ext_getElem? fun k => ?_
    rw [List.getElem?_take, List.getElem?_take]
    split_ifs with hk
    · rw [List.getElem?_drop, List.getElem?_drop, List.getElem?_append, List.getElem?_append]
      simp only [List.length_append, List.length_take, hl, List.getElem?_take, List.getElem?_drop]
      split_ifs <;> first | omega | rfl | (congr 1; omega)
    · rfl
  · rw [contents, contents, write_array_ne ha]

theorem load_eq (s : Slice) (i : ℤ) :
    m.load s i = if 0 ≤ i then (m.contents s)[i.toNat]? else none := by
  rw [load, contents]
  by_cases hi : 0 ≤ i
  · by_cases hlt : i < s.len
    · rw [if_pos ⟨hi, hlt⟩, if_pos hi, List.getElem?_take, if_pos (by omega), List.getElem?_drop]
    · rw [if_neg (fun hc => hlt hc.2), if_pos hi, List.getElem?_take, if_neg (by omega)]
  · rw [if_neg (fun hc => hi hc.1), if_neg hi]

/-- A store is a write of the changed contents. -/
theorem store_eq (h : s.Within m) {i : ℤ} (hi : 0 ≤ i) (hlt : i < s.len) (x : α) :
    m.store s i x = some (m.write s ((m.contents s).set i.toNat x)) := by
  have hpre := length_take_offset h
  have hlen := length_contents h
  rw [store, if_pos ⟨hi, hlt⟩, write]
  refine congrArg (fun arrays => some (Memory.mk arrays)) (modify_congr ?_)
  conv_lhs => rw [array_eq s]
  rw [List.length_set, hlen, List.append_assoc, List.set_append_right _ _ (by omega), hpre,
    List.set_append_left _ _ (by omega), ← List.append_assoc]
  congr 3
  omega

theorem make_array_of_lt (zero : α) (n : ℕ) {a : ℕ} (h : a < m.arrays.length) :
    (m.make zero n).2.array a = m.array a := by
  rw [array, make, List.getElem?_append_left h, array]

theorem make_array_new (zero : α) (n : ℕ) :
    (m.make zero n).2.array m.arrays.length = List.replicate n zero := by
  rw [array, make, List.getElem?_concat_length]
  rfl

theorem within_make_new (zero : α) (n : ℕ) : (m.make zero n).1.Within (m.make zero n).2 := by
  have h : (m.make zero n).1.array = m.arrays.length := rfl
  rw [Slice.Within, h, make_array_new, List.length_replicate]
  exact Nat.le_of_eq (Nat.zero_add n)

/-- The slices there were show what they showed. -/
theorem contents_make (zero : α) (n : ℕ) (h : s.Within m) :
    (m.make zero n).2.contents s = m.contents s := by
  obtain ha | ⟨-, hlen⟩ := allocated_or_empty h
  · rw [contents, make_array_of_lt zero n ha, contents]
  · rw [contents, contents, hlen, List.take_zero, List.take_zero]

theorem within_make (zero : α) (n : ℕ) (h : s.Within m) : s.Within (m.make zero n).2 := by
  obtain ha | ⟨hoffset, hlen⟩ := allocated_or_empty h
  · rw [Slice.Within, make_array_of_lt zero n ha]
    exact h
  · rw [Slice.Within, hoffset, hlen]
    exact Nat.zero_le _

/-- A new slice has no element in common with those there were. -/
theorem make_disjoint (zero : α) (n : ℕ) (h : s.Within m) : (m.make zero n).1.Disjoint s := by
  obtain ha | ⟨hoffset, hlen⟩ := allocated_or_empty h
  · exact Or.inl (Nat.ne_of_gt ha)
  · rw [Slice.Disjoint, hoffset, hlen]
    exact Or.inr (Or.inr (Nat.zero_le _))

theorem copy_eq {dst src : Slice} (h : src.Within m) (hlen : dst.len = src.len) :
    m.copy dst src = m.write dst (m.contents src) := by
  rw [copy, hlen, ← length_contents h, List.take_length]

end Memory

end ReversalBench
