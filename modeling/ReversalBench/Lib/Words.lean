import Mathlib.Data.List.TakeWhile
import Mathlib.Algebra.GroupWithZero.Nat
import Mathlib.Algebra.Order.Group.Nat
import Mathlib.Algebra.BigOperators.Group.List.Basic

/-! Words in a list, separated by elements that count as white space. A word ends where white
space follows it. What ends within the front part of a list can be read without looking at
the part behind it. -/

namespace ReversalBench.Words

variable {α : Type*} (space : α → Bool)

/-- Nothing but white space. -/
def Blank (l : List α) : Prop := ∀ a ∈ l, space a = true

structure IsWord (w : List α) : Prop where
  ne_nil : w ≠ []
  solid : ∀ a ∈ w, space a = false

/-- A word in front of `l` ends there. -/
def Stops (l : List α) : Prop := ∀ a ∈ l.head?, space a = true

/-- The number of words that end within the list. -/
def ended : List α → ℕ
  | a :: b :: l => (if !space a && space b then 1 else 0) + ended (b :: l)
  | _ => 0

variable {space} {a b : α} {g w l m : List α}

theorem IsWord.exists_cons (h : IsWord space w) :
    ∃ a v, w = a :: v ∧ space a = false := by
  obtain ⟨a, v, rfl⟩ := List.exists_cons_of_ne_nil h.ne_nil
  exact ⟨a, v, rfl, h.solid a List.mem_cons_self⟩

theorem stops_nil : Stops space ([] : List α) := by simp [Stops]

theorem stops_cons (h : space a = true) : Stops space (a :: l) := by simpa [Stops] using h

theorem Stops.append (h : Stops space l) (hne : l ≠ []) : Stops space (l ++ m) := by
  obtain ⟨a, v, rfl⟩ := List.exists_cons_of_ne_nil hne
  exact h

/-! ### Splitting off a word -/

/-- White space is skipped up to the next word. -/
theorem dropWhile_blank (hg : Blank space g) (hw : IsWord space w) :
    (g ++ (w ++ l)).dropWhile space = w ++ l := by
  obtain ⟨a, v, rfl, ha⟩ := hw.exists_cons
  rw [List.dropWhile_append_of_pos hg, List.cons_append, List.dropWhile_cons_of_neg]
  simp [ha]

/-- A predicate that fails on white space stops at the end of the word. -/
theorem takeWhile_word {p : α → Bool} (hp : ∀ a, space a = true → p a = false)
    (h : Stops space l) : (w ++ l).takeWhile p = w.takeWhile p := by
  induction w with
  | nil =>
    cases l with
    | nil => rfl
    | cons a l => simp [hp a (h a rfl)]
  | cons a w ih =>
    cases ha : p a <;> simp [ha, ih]

theorem dropWhile_word {p : α → Bool} (hp : ∀ a, space a = true → p a = false)
    (h : Stops space l) : (w ++ l).dropWhile p = w.dropWhile p ++ l := by
  induction w with
  | nil =>
    cases l with
    | nil => rfl
    | cons a l => simp [hp a (h a rfl)]
  | cons a w ih =>
    cases ha : p a <;> simp [ha, ih]

/-- The whole word is taken. -/
theorem takeWhile_solid (hw : IsWord space w) (h : Stops space l) :
    (w ++ l).takeWhile (fun a => !space a) = w := by
  rw [takeWhile_word (by simp) h, List.takeWhile_eq_self_iff]
  intro a ha
  simp [hw.solid a ha]

theorem dropWhile_solid (hw : IsWord space w) (h : Stops space l) :
    (w ++ l).dropWhile (fun a => !space a) = l := by
  rw [dropWhile_word (by simp) h, List.dropWhile_eq_nil_iff.mpr, List.nil_append]
  intro a ha
  simp [hw.solid a ha]

/-! ### Counting the words that end -/

theorem ended_cons (h : space a = true) : ended space (a :: l) = ended space l := by
  cases l <;> simp [ended, h]

/-- Appending can only let one more word end. -/
theorem le_ended_append (l m : List α) :
    ended space l + ended space m ≤ ended space (l ++ m) := by
  induction l with
  | nil => simp [ended]
  | cons a l ih =>
    cases l with
    | nil => cases m <;> simp [ended]
    | cons b l =>
      simp only [List.cons_append, ended] at ih ⊢
      omega

theorem ended_le_append_left (l m : List α) : ended space m ≤ ended space (l ++ m) :=
  (Nat.le_add_left _ _).trans (le_ended_append l m)

/-- Some word ends between an element that is no white space and a white space. -/
theorem ended_pos (ha : space a = false) (hb : space b = true) (l : List α) :
    0 < ended space (a :: (l ++ [b])) := by
  induction l generalizing a with
  | nil => simp [ended, ha, hb]
  | cons c l ih =>
    cases hc : space c with
    | true => simp [ended, ha, hc]
    | false => exact (ih hc).trans_le (Nat.le_add_left _ _)

theorem IsWord.ended_pos (hw : IsWord space w) (hb : space b = true) :
    0 < ended space (w ++ [b]) := by
  obtain ⟨a, v, rfl, ha⟩ := hw.exists_cons
  exact Words.ended_pos ha hb v

theorem sum_ended_le (ls : List (List α)) :
    (ls.map (ended space)).sum ≤ ended space ls.flatten := by
  induction ls with
  | nil => simp [ended]
  | cons l ls ih =>
    rw [List.map_cons, List.sum_cons, List.flatten_cons]
    exact (Nat.add_le_add_left ih _).trans (le_ended_append l ls.flatten)

/-- Where a word ends, there is a first one. -/
theorem exists_word (h : 0 < ended space l) :
    ∃ g w m, l = g ++ (w ++ m) ∧ Blank space g ∧ IsWord space w ∧ m ≠ [] ∧ Stops space m ∧
      ended space l = ended space m + 1 := by
  induction l with
  | nil => simp [ended] at h
  | cons a l ih =>
    cases l with
    | nil => simp [ended] at h
    | cons b l =>
      cases ha : space a with
      | true =>
        rw [ended_cons ha] at h ⊢
        obtain ⟨g, w, m, heq, hg, hw, hm⟩ := ih h
        refine ⟨a :: g, w, m, by rw [heq, List.cons_append], ?_, hw, hm⟩
        exact List.forall_mem_cons.mpr ⟨ha, hg⟩
      | false =>
        cases hb : space b with
        | true =>
          refine ⟨[], [a], b :: l, rfl, by simp [Blank], ⟨by simp, by simp [ha]⟩,
            List.cons_ne_nil _ _, stops_cons hb, ?_⟩
          simp [ended, ha, hb, Nat.add_comm]
        | false =>
          have hsame : ended space (a :: b :: l) = ended space (b :: l) := by
            simp [ended, hb]
          rw [hsame] at h ⊢
          obtain ⟨g, w, m, heq, hg, hw, hm⟩ := ih h
          cases g with
          | nil =>
            refine ⟨[], a :: w, m, by rw [heq]; rfl, hg, ⟨by simp, ?_⟩, hm⟩
            exact List.forall_mem_cons.mpr ⟨ha, hw.solid⟩
          | cons c g =>
            cases heq
            rw [hg b List.mem_cons_self] at hb
            cases hb

end ReversalBench.Words
