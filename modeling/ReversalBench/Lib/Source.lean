import Mathlib.Data.List.Basic
import Mathlib.Algebra.Order.Group.Nat

/-! Sources of elements that a program reads piecewise. One read asks for at most
`n` elements and gets at least one, or an error. Reading exactly `n` elements is
a loop of such reads. Where the source delivers the elements of a fixed list and
then the end of it, the loop does not depend on how the list is cut into reads. -/

namespace ReversalBench

/-- Something that can be read: a read that asks for at least one element and
does not fail delivers at least one and at most as many as it was asked for. -/
structure Source (σ ε α : Type*) where
  read : σ → ℕ → Except ε (List α) × σ
  ne_nil : ∀ {s n l t}, 0 < n → read s n = (.ok l, t) → l ≠ []
  length_le : ∀ {s n l t}, read s n = (.ok l, t) → l.length ≤ n

namespace Source

variable {σ ε α : Type*}

/-- At most `fuel` reads towards `n` elements: the elements read, the error that
stopped the reading short, and the source afterwards. -/
def readUpTo (S : Source σ ε α) : ℕ → ℕ → σ → List α × Option ε × σ
  | 0, _, s => ([], none, s)
  | _, 0, s => ([], none, s)
  | fuel + 1, n + 1, s =>
    match S.read s (n + 1) with
    | (.error e, t) => ([], some e, t)
    | (.ok l, t) =>
      let rest := S.readUpTo fuel (n + 1 - l.length) t
      (l ++ rest.1, rest.2)

/-- Read exactly `n` elements, or until the first error. A read delivers at least
one element, so `n` reads are enough. -/
def readFull (S : Source σ ε α) (n : ℕ) (s : σ) : List α × Option ε × σ :=
  S.readUpTo n n s

/-- The source delivers the list `rest s` and then fails with `eof`. -/
structure Delivers (S : Source σ ε α) (rest : σ → List α) (eof : ε) : Prop where
  at_end : ∀ s n, 0 < n → rest s = [] → ∃ t, S.read s n = (.error eof, t) ∧ rest t = []
  inside : ∀ s n, 0 < n → rest s ≠ [] → ∃ l t, S.read s n = (.ok l, t) ∧ rest s = l ++ rest t

variable {S : Source σ ε α} {rest : σ → List α} {eof : ε}

theorem length_readUpTo_le : ∀ fuel n (s : σ), (S.readUpTo fuel n s).1.length ≤ n
  | 0, _, _ => Nat.zero_le _
  | _ + 1, 0, _ => Nat.zero_le _
  | fuel + 1, n + 1, s => by
    rw [readUpTo]
    split
    · exact Nat.zero_le _
    · rename_i l t hr
      have hle := S.length_le hr
      have ih := length_readUpTo_le fuel (n + 1 - l.length) t
      rw [List.length_append]
      omega

theorem length_readFull_le (n : ℕ) (s : σ) : (S.readFull n s).1.length ≤ n :=
  length_readUpTo_le n n s

theorem readUpTo_full (h : S.Delivers rest eof) :
    ∀ fuel n s, n ≤ fuel → n ≤ (rest s).length →
      ∃ t, S.readUpTo fuel n s = ((rest s).take n, none, t) ∧ rest t = (rest s).drop n
  | 0, 0, s, _, _ => ⟨s, by simp [readUpTo], by simp⟩
  | _ + 1, 0, s, _, _ => ⟨s, by simp [readUpTo], by simp⟩
  | fuel + 1, n + 1, s, hf, hn => by
    have hne : rest s ≠ [] := by rintro h0; simp [h0] at hn
    obtain ⟨l, t, hr, hs⟩ := h.inside s (n + 1) (by omega) hne
    have hpos := List.length_pos_of_ne_nil (S.ne_nil (by omega) hr)
    have hle := S.length_le hr
    rw [hs, List.length_append] at hn
    obtain ⟨u, hu, hru⟩ := readUpTo_full h fuel (n + 1 - l.length) t (by omega) (by omega)
    refine ⟨u, ?_, ?_⟩
    · rw [readUpTo, hr]
      simp only [hu, hs]
      rw [List.take_append, List.take_of_length_le hle]
    · rw [hru, hs, List.drop_append, List.drop_eq_nil_of_le hle, List.nil_append]

theorem readUpTo_short (h : S.Delivers rest eof) :
    ∀ fuel n s, n ≤ fuel → (rest s).length < n →
      ∃ t, S.readUpTo fuel n s = (rest s, some eof, t) ∧ rest t = []
  | 0, n, s, hf, hn => by omega
  | fuel + 1, 0, s, _, hn => by omega
  | fuel + 1, n + 1, s, hf, hn => by
    by_cases hne : rest s = []
    · obtain ⟨t, hr, ht⟩ := h.at_end s (n + 1) (by omega) hne
      exact ⟨t, by rw [readUpTo, hr]; simp [hne], ht⟩
    · obtain ⟨l, t, hr, hs⟩ := h.inside s (n + 1) (by omega) hne
      have hpos := List.length_pos_of_ne_nil (S.ne_nil (by omega) hr)
      rw [hs, List.length_append] at hn
      obtain ⟨u, hu, hru⟩ := readUpTo_short h fuel (n + 1 - l.length) t (by omega) (by omega)
      refine ⟨u, ?_, hru⟩
      rw [readUpTo, hr]
      simp only [hu, hs]

/-- Enough elements are left: exactly the next `n` are read, however they come. -/
theorem readFull_full (h : S.Delivers rest eof) {n : ℕ} {s : σ} (hn : n ≤ (rest s).length) :
    ∃ t, S.readFull n s = ((rest s).take n, none, t) ∧ rest t = (rest s).drop n :=
  readUpTo_full h n n s le_rfl hn

/-- Too few elements are left: all of them are read, and then the end is met. -/
theorem readFull_short (h : S.Delivers rest eof) {n : ℕ} {s : σ} (hn : (rest s).length < n) :
    ∃ t, S.readFull n s = (rest s, some eof, t) ∧ rest t = [] :=
  readUpTo_short h n n s le_rfl hn

/-- A source that is part of another one is read there as it is by itself. -/
theorem readUpTo_map {τ : Type*} {T : Source τ ε α} {f : σ → τ}
    (h : ∀ s n, T.read (f s) n = ((S.read s n).1, f (S.read s n).2)) :
    ∀ fuel n s, T.readUpTo fuel n (f s) =
      ((S.readUpTo fuel n s).1, (S.readUpTo fuel n s).2.1, f (S.readUpTo fuel n s).2.2)
  | 0, 0, _ => rfl
  | 0, _ + 1, _ => rfl
  | _ + 1, 0, _ => rfl
  | fuel + 1, n + 1, s => by
    rw [readUpTo, readUpTo, h]
    obtain ⟨got, t, hread⟩ : ∃ got t, S.read s (n + 1) = (got, t) := ⟨_, _, rfl⟩
    rw [hread]
    cases got with
    | error e => rfl
    | ok l =>
      dsimp only
      rw [readUpTo_map h fuel (n + 1 - l.length) t]

/-- Reading nothing leaves the source alone. -/
@[simp] theorem readFull_zero (s : σ) : S.readFull 0 s = ([], none, s) := by
  simp [readFull, readUpTo]

end Source

/-! ### Lists that arrive in segments -/

namespace Segments

variable {α ε : Type*}

/-- One read of a list that arrives in segments: what is asked for or the rest of
the first segment, whichever is less. An empty segment delivers nothing. -/
def read (eof : ε) : List (List α) → ℕ → Except ε (List α) × List (List α)
  | [], _ => (.error eof, [])
  | [] :: segs, n => read eof segs n
  | (a :: as) :: segs, n => (.ok ((a :: as).take n), (a :: as).drop n :: segs)

theorem read_ok (eof : ε) {segs t : List (List α)} {n : ℕ} {l : List α}
    (h : read eof segs n = (.ok l, t)) :
    (0 < n → l ≠ []) ∧ l.length ≤ n ∧ segs.flatten = l ++ t.flatten := by
  induction segs with
  | nil => cases h
  | cons seg segs ih =>
    cases seg with
    | nil => exact ih h
    | cons a as =>
      cases h
      refine ⟨fun hn => ?_, List.length_take_le n _, ?_⟩
      · simpa using Nat.ne_of_gt hn
      · simp only [List.flatten_cons, ← List.append_assoc, List.take_append_drop]

theorem read_nil (eof : ε) {segs : List (List α)} {n : ℕ} (h : segs.flatten = []) :
    read eof segs n = (.error eof, []) := by
  induction segs with
  | nil => rfl
  | cons seg segs ih =>
    cases seg with
    | nil => exact ih h
    | cons a as => simp at h

theorem read_ne_nil (eof : ε) {segs : List (List α)} {n : ℕ} (h : segs.flatten ≠ []) :
    ∃ l t, read eof segs n = (.ok l, t) := by
  induction segs with
  | nil => simp at h
  | cons seg segs ih =>
    cases seg with
    | nil => exact ih h
    | cons a as => exact ⟨_, _, rfl⟩

/-- The segments as a source. -/
def source (α : Type*) (eof : ε) : Source (List (List α)) ε α where
  read := read eof
  ne_nil hn h := (read_ok eof h).1 hn
  length_le h := (read_ok eof h).2.1

theorem source_delivers (eof : ε) : (source α eof).Delivers List.flatten eof where
  at_end _ _ _ h := ⟨[], read_nil eof h, rfl⟩
  inside _ _ _ h := by
    obtain ⟨l, t, hr⟩ := read_ne_nil eof h
    exact ⟨l, t, hr, (read_ok eof hr).2.2⟩

end Segments

end ReversalBench
