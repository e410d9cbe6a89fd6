import Mathlib.Data.List.Basic
import Mathlib.Algebra.BigOperators.Group.List.Basic
import Mathlib.Algebra.Order.BigOperators.Group.List
import Mathlib.Algebra.Order.Group.Nat
import Mathlib.Algebra.GroupWithZero.Nat
import Mathlib.Data.List.Perm.Subperm

/-! A list cut into blocks of a fixed size. All blocks are full except possibly
the last one, which is not empty; together they are the list. -/

namespace ReversalBench.Blocks

variable {α : Type*}

/-- How many blocks of size `n` cover `len` elements. -/
def count (n len : ℕ) : ℕ := (len + n - 1) / n

/-- The size of block `i` of `len` elements. -/
def size (n len i : ℕ) : ℕ := min n (len - i * n)

/-- The blocks of size `n` of a list, in order. -/
def blocks (n : ℕ) (l : List α) : List (List α) :=
  (List.range (count n l.length)).map fun i => (l.drop (i * n)).take n

/-! ### The number of blocks -/

@[simp] theorem count_zero (n : ℕ) : count n 0 = 0 := by
  rcases n with _ | n
  · simp [count]
  · rw [count, Nat.div_eq_of_lt (by omega)]

theorem lt_count_iff {n : ℕ} (hn : 0 < n) {len i : ℕ} : i < count n len ↔ i * n < len := by
  unfold count
  rw [Nat.lt_iff_add_one_le, Nat.le_div_iff_mul_le hn, Nat.add_mul]
  omega

theorem count_le_iff {n : ℕ} (hn : 0 < n) {len i : ℕ} : count n len ≤ i ↔ len ≤ i * n := by
  rw [← not_lt, lt_count_iff hn, not_lt]

theorem count_pos_iff {n : ℕ} (hn : 0 < n) {len : ℕ} : 0 < count n len ↔ 0 < len := by
  simpa using @lt_count_iff n hn len 0

theorem count_le {n : ℕ} (hn : 0 < n) (len : ℕ) : count n len ≤ len := by
  rw [count_le_iff hn]
  exact Nat.le_mul_of_pos_right len hn

theorem count_sub {n : ℕ} (hn : 0 < n) {len : ℕ} (h : 0 < len) :
    count n len = count n (len - n) + 1 := by
  refine Nat.le_antisymm ?_ (Nat.succ_le_of_lt ?_)
  · rw [count_le_iff hn, Nat.add_mul]
    have := (@count_le_iff n hn (len - n) _).mp le_rfl
    omega
  · rw [lt_count_iff hn]
    by_cases hc : 0 < count n (len - n)
    · have := (@lt_count_iff n hn (len - n) (count n (len - n) - 1)).mp (by omega)
      rw [Nat.sub_mul, Nat.one_mul] at this
      omega
    · rw [Nat.eq_zero_of_not_pos hc]
      omega

theorem count_eq_iff {n : ℕ} (hn : 0 < n) {len i : ℕ} :
    count n len = i + 1 ↔ i * n < len ∧ len ≤ (i + 1) * n := by
  rw [← lt_count_iff hn, ← count_le_iff hn]
  omega

/-- The blocks are all full if and only if the size divides the length. -/
theorem count_mul_eq_iff {n : ℕ} (hn : 0 < n) {len : ℕ} : count n len * n = len ↔ n ∣ len := by
  constructor
  · intro h
    exact Dvd.intro_left _ h
  · rintro ⟨k, rfl⟩
    have hle : count n (n * k) ≤ k := (count_le_iff hn).mpr (Nat.mul_comm n k).le
    refine le_antisymm ?_ ((count_le_iff hn).mp le_rfl)
    rw [Nat.mul_comm n k]
    exact Nat.mul_le_mul_right n ((Nat.mul_comm n k) ▸ hle)

/-- The number of blocks by division with remainder. -/
theorem count_eq_div {n : ℕ} (hn : 0 < n) (len : ℕ) :
    count n len = if len % n ≠ 0 then len / n + 1 else len / n := by
  have hdiv := Nat.div_add_mod len n
  have hmod := Nat.mod_lt len hn
  split
  · rw [count_eq_iff hn, Nat.succ_mul, Nat.mul_comm (len / n) n]
    omega
  next h =>
    have := (count_mul_eq_iff hn).mpr (Nat.dvd_of_mod_eq_zero (not_not.mp h))
    exact (Nat.div_eq_of_eq_mul_left hn this.symm).symm

/-! ### The blocks -/

variable {n : ℕ} {l : List α}

@[simp] theorem length_blocks : (blocks n l).length = count n l.length := by simp [blocks]

@[simp] theorem blocks_nil : blocks n ([] : List α) = [] := by simp [blocks]

theorem getElem_blocks {i : ℕ} (h : i < (blocks n l).length) :
    (blocks n l)[i] = (l.drop (i * n)).take n := by
  simp [blocks]

theorem length_getElem_blocks {i : ℕ} (h : i < (blocks n l).length) :
    (blocks n l)[i].length = size n l.length i := by
  simp [getElem_blocks, size]

theorem blocks_eq_cons (hn : 0 < n) (hl : l ≠ []) :
    blocks n l = l.take n :: blocks n (l.drop n) := by
  have hpos : 0 < l.length := List.length_pos_of_ne_nil hl
  unfold blocks
  rw [List.length_drop, count_sub hn hpos, List.range_succ_eq_map]
  simp [Nat.add_mul, Nat.add_comm]

/-- Induction along the blocks of a list. -/
theorem blocks_induction (hn : 0 < n) {P : List α → Prop} (nil : P [])
    (cons : ∀ l, l ≠ [] → P (l.drop n) → P l) (l : List α) : P l := by
  induction h : l.length using Nat.strong_induction_on generalizing l with
  | h m ih =>
    by_cases hl : l = []
    · exact hl ▸ nil
    · refine cons l hl (ih _ ?_ _ rfl)
      have := List.length_pos_of_ne_nil hl
      rw [List.length_drop]
      omega

theorem flatten_blocks (hn : 0 < n) (l : List α) : (blocks n l).flatten = l := by
  induction l using blocks_induction hn with
  | nil => simp
  | cons l hl ih => rw [blocks_eq_cons hn hl, List.flatten_cons, ih, List.take_append_drop]

theorem ne_nil_of_mem_blocks (hn : 0 < n) {b : List α} (h : b ∈ blocks n l) : b ≠ [] := by
  obtain ⟨i, hi, rfl⟩ := List.mem_iff_getElem.mp h
  have hlt : i * n < l.length := by rwa [length_blocks, lt_count_iff hn] at hi
  rw [← List.length_pos_iff_ne_nil, length_getElem_blocks, size]
  omega

/-- Only the blocks of a list have their sizes and are the list together. -/
theorem eq_blocks (hn : 0 < n) {ls : List (List α)} (hne : ∀ b ∈ ls, b ≠ [])
    (hle : ∀ b ∈ ls, b.length ≤ n) (hfull : ∀ b ∈ ls.dropLast, b.length = n) :
    ls = blocks n ls.flatten := by
  induction ls with
  | nil => simp
  | cons b ls ih =>
    obtain ⟨hb, hne⟩ := List.forall_mem_cons.mp hne
    obtain ⟨hlb, hle⟩ := List.forall_mem_cons.mp hle
    rw [List.flatten_cons, blocks_eq_cons hn (by simp [hb])]
    cases ls with
    | nil => simp [List.take_of_length_le hlb, List.drop_eq_nil_of_le hlb]
    | cons b' ls =>
      rw [List.dropLast_cons_cons, List.forall_mem_cons] at hfull
      rw [List.take_left' hfull.1, List.drop_left' hfull.1, ← ih hne hle hfull.2]

theorem length_le_of_mem_blocks {b : List α} (h : b ∈ blocks n l) : b.length ≤ n := by
  obtain ⟨i, -, rfl⟩ := List.mem_map.mp h
  exact List.length_take_le n _

/-- All blocks but the last one are full. -/
theorem length_of_mem_dropLast (hn : 0 < n) (l : List α) :
    ∀ b ∈ (blocks n l).dropLast, b.length = n := by
  induction l using blocks_induction hn with
  | nil => simp
  | cons l hl ih =>
    rw [blocks_eq_cons hn hl]
    by_cases hd : l.drop n = []
    · simp [hd]
    · have hlt : n < l.length := by simpa using hd
      rw [List.dropLast_cons_of_ne_nil (by rw [blocks_eq_cons hn hd]; simp), List.forall_mem_cons]
      exact ⟨List.length_take_of_le hlt.le, ih⟩

theorem flatten_take_blocks {k : ℕ} (h : k ≤ (blocks n l).length) :
    ((blocks n l).take k).flatten = l.take (k * n) := by
  induction k with
  | zero => simp
  | succ k ih =>
    rw [List.take_add_one, List.getElem?_eq_getElem h, List.flatten_append,
      ih (Nat.le_of_succ_le h), getElem_blocks, Nat.succ_mul, List.take_add]
    simp

theorem sum_length_take_blocks {k : ℕ} (h : k ≤ (blocks n l).length) :
    (((blocks n l).take k).map List.length).sum = min (k * n) l.length := by
  rw [← List.length_flatten, flatten_take_blocks h, List.length_take]

theorem sum_length_blocks (hn : 0 < n) (l : List α) :
    ((blocks n l).map List.length).sum = l.length := by
  rw [← List.length_flatten, flatten_blocks hn]

/-! ### The sizes of the blocks -/

theorem size_pos (hn : 0 < n) {len i : ℕ} (h : i < count n len) : 0 < size n len i := by
  rw [lt_count_iff hn] at h
  unfold size
  omega

theorem size_full (hn : 0 < n) {len i : ℕ} (h : i + 1 < count n len) : size n len i = n := by
  rw [lt_count_iff hn, Nat.succ_mul] at h
  unfold size
  omega

/-- The last block ends where the list ends. -/
theorem size_last (hn : 0 < n) {len i : ℕ} (h : i + 1 = count n len) :
    i * n + size n len i = len := by
  have hlt : i * n < len := by rw [← lt_count_iff hn]; omega
  have hle : len ≤ (i + 1) * n := by rw [← count_le_iff hn, h]
  rw [Nat.succ_mul] at hle
  unfold size
  omega

/-- No block is longer than the first one. -/
theorem length_le_first {b : List α} (hb : b ∈ blocks n l) (hpos : 0 < (blocks n l).length) :
    b.length ≤ ((blocks n l)[0]).length := by
  obtain ⟨i, hi, rfl⟩ := List.getElem_of_mem hb
  rw [length_getElem_blocks, length_getElem_blocks]
  simp only [size]
  omega

theorem map_length_blocks (n : ℕ) (l : List α) :
    (blocks n l).map List.length = (List.range (count n l.length)).map (size n l.length) := by
  rw [blocks, List.map_map]
  apply List.map_congr_left
  intro i _
  simp [size]

theorem sum_size (hn : 0 < n) (len : ℕ) :
    ((List.range (count n len)).map (size n len)).sum = len := by
  have h := sum_length_blocks hn (List.replicate len ())
  rwa [map_length_blocks, List.length_replicate] at h

/-- Different blocks that have the size of the whole list together are all its blocks. -/
theorem mem_of_sum_size (hn : 0 < n) {len : ℕ} {is : List ℕ} (hnodup : is.Nodup)
    (hlt : ∀ i ∈ is, i < count n len) (hsum : (is.map (size n len)).sum = len) {k : ℕ}
    (hk : k < count n len) : k ∈ is := by
  by_contra hmem
  have hsub : (k :: is).Subperm (List.range (count n len)) := by
    apply List.subperm_of_subset (List.nodup_cons.mpr ⟨hmem, hnodup⟩)
    intro i hi
    rw [List.mem_range]
    rcases List.mem_cons.mp hi with rfl | hi
    · exact hk
    · exact hlt i hi
  obtain ⟨l, hperm, hsubl⟩ := hsub
  have hle : ((k :: is).map (size n len)).sum ≤
      ((List.range (count n len)).map (size n len)).sum := by
    rw [← (hperm.map _).sum_eq]
    exact (hsubl.map _).sum_le_sum fun _ _ => Nat.zero_le _
  rw [sum_size hn, List.map_cons, List.sum_cons, hsum] at hle
  have := size_pos hn hk
  omega

end ReversalBench.Blocks
