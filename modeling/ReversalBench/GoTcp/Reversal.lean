import Mathlib.Data.List.Induction
import Mathlib.Algebra.Order.Group.Nat

/-! Reversal in the Go benchmark (package `reversal`): a loop over two indices that
swaps the ends of a slice and moves inwards. An index outside the slice would
panic; the loop is shown never to use one. -/

namespace ReversalBench.GoTcp

/-- `data[i]`, or a panic. -/
def index (data : List UInt8) (i : ℤ) : Option UInt8 :=
  if 0 ≤ i then data[i.toNat]? else none

/-- `data[i], data[j] = data[j], data[i]`. -/
def swapBytes (data : List UInt8) (i j : ℤ) : Option (List UInt8) := do
  let x ← index data i
  let y ← index data j
  return (data.set i.toNat y).set j.toNat x

/-- The loop from the indices `i` and `j` on. -/
def reverseLoop (data : List UInt8) (i j : ℤ) : Option (List UInt8) :=
  if i < j then (swapBytes data i j).bind fun data => reverseLoop data (i + 1) (j - 1)
  else some data
termination_by (j - i).toNat

def reverseBytesInPlace (data : List UInt8) : Option (List UInt8) :=
  reverseLoop data 0 (data.length - 1)

/-- Copy into a new slice of the same length and reverse that. -/
def getReversedBytes (data : List UInt8) : Option (List UInt8) :=
  let reversed := data.take data.length
  reverseBytesInPlace reversed

theorem index_append (pre suf : List UInt8) (a : UInt8) {i : ℤ} (hi : i = pre.length) :
    index (pre ++ a :: suf) i = some a := by
  subst hi
  simp [index]

/-- An index that can be read is inside the slice. -/
theorem index_bounds {data : List UInt8} {i : ℤ} {x : UInt8} (h : index data i = some x) :
    0 ≤ i ∧ i < data.length := by
  rw [index] at h
  split_ifs at h with hi
  obtain ⟨hlt, -⟩ := List.getElem?_eq_some_iff.mp h
  omega

theorem length_swapBytes {data data' : List UInt8} {i j : ℤ}
    (h : swapBytes data i j = some data') : data'.length = data.length := by
  simp only [swapBytes, Option.bind_eq_bind, Option.bind_eq_some_iff] at h
  obtain ⟨x, -, y, -, h⟩ := h
  cases h
  rw [List.length_set, List.length_set]

theorem length_reverseLoop {data data' : List UInt8} {i j : ℤ}
    (h : reverseLoop data i j = some data') : data'.length = data.length := by
  induction data, i, j using reverseLoop.induct with
  | case1 data i j hgo ih =>
    rw [reverseLoop, if_pos hgo, Option.bind_eq_some_iff] at h
    obtain ⟨data₁, hswap, hloop⟩ := h
    rw [ih data₁ hloop, length_swapBytes hswap]
  | case2 data i j hstop =>
    rw [reverseLoop, if_neg hstop] at h
    cases h
    rfl

/-- One round: the outermost bytes of the middle part change places. -/
theorem swapBytes_ends (pre mid suf : List UInt8) (a b : UInt8) {i j : ℤ}
    (hi : i = pre.length) (hj : j = pre.length + (mid.length + 1)) :
    swapBytes (pre ++ (a :: (mid ++ [b])) ++ suf) i j =
      some (pre ++ (b :: (mid ++ [a])) ++ suf) := by
  have hx : index (pre ++ (a :: (mid ++ [b])) ++ suf) i = some a := by
    rw [List.append_assoc]
    exact index_append pre _ a hi
  have hy : index (pre ++ (a :: (mid ++ [b])) ++ suf) j = some b := by
    have := index_append (pre ++ a :: mid) suf b (i := j) (by simp; omega)
    simpa using this
  have hset : ((pre ++ (a :: (mid ++ [b])) ++ suf).set i.toNat b).set j.toNat a =
      pre ++ (b :: (mid ++ [a])) ++ suf := by
    have hj' : j.toNat = pre.length + (mid.length + 1) := by omega
    rw [hj', hi, Int.toNat_natCast]
    simp
  simp only [swapBytes, hx, hy, Option.bind_eq_bind, Option.bind_some, hset]
  rfl

/-- The ends outside the indices stay, the middle is reversed; both parities of the
length end the loop. -/
theorem reverseLoop_eq (mid : List UInt8) : ∀ (pre suf : List UInt8) {i j : ℤ},
    i = pre.length → j = pre.length + mid.length - 1 →
      reverseLoop (pre ++ mid ++ suf) i j = some (pre ++ mid.reverse ++ suf) := by
  induction mid using List.bidirectionalRec with
  | nil =>
    intro pre suf i j hi hj
    have hstop : ¬ i < j := by simp at hj; omega
    rw [reverseLoop, if_neg hstop]
    rfl
  | singleton a =>
    intro pre suf i j hi hj
    have hstop : ¬ i < j := by simp at hj; omega
    rw [reverseLoop, if_neg hstop]
    rfl
  | cons_append a mid b ih =>
    intro pre suf i j hi hj
    simp only [List.length_cons, List.length_append, List.length_nil] at hj
    have hgo : i < j := by omega
    rw [reverseLoop, if_pos hgo, swapBytes_ends pre mid suf a b hi (by omega), Option.bind_some]
    have hstep := ih (pre ++ [b]) (a :: suf) (i := i + 1) (j := j - 1)
      (by simp; omega) (by simp; omega)
    simpa using hstep

/-- The loop terminates without leaving the slice and reverses it. -/
theorem reverseBytesInPlace_eq (data : List UInt8) :
    reverseBytesInPlace data = some data.reverse := by
  have h := reverseLoop_eq data [] [] (i := 0) (j := data.length - 1) (by simp) (by simp)
  simpa [reverseBytesInPlace] using h

theorem getReversedBytes_eq (data : List UInt8) : getReversedBytes data = some data.reverse := by
  rw [getReversedBytes, List.take_length, reverseBytesInPlace_eq]

end ReversalBench.GoTcp
