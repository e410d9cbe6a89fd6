import ReversalBench.Lib.Words
import Mathlib.Data.BitVec
import Mathlib.Data.Nat.Notation
import Mathlib.Logic.Function.Iterate

/-! Formatted input from a string (`std::stringstream`): words, and decimal numbers without
sign. Text in front of an operation decides what it reads as soon as a word ends there. -/

namespace ReversalBench

/-- `std::isspace`: the blank, and the characters from the tabulator to the carriage return. -/
def isSpace (c : Char) : Bool := c == ' ' || (9 ≤ c.toNat && c.toNat ≤ 13)

/-- What is still to be read, and `failbit`. A stream at its end fails at the next operation. -/
structure StringStream where
  rest : List Char
  failed : Bool

namespace StringStream

open Words (Blank IsWord Stops ended)

def new (text : List Char) : StringStream := ⟨text, false⟩

/-- `ss >> value` for a string. -/
def readWord (ss : StringStream) (value : List Char) : List Char × StringStream :=
  let text := ss.rest.dropWhile isSpace
  if ss.failed then (value, ss)
  else if text = [] then (value, ⟨[], true⟩)
  else (text.takeWhile fun c => !isSpace c, ⟨text.dropWhile fun c => !isSpace c, false⟩)

/-- What follows an optional sign. -/
def unsigned (text : List Char) : List Char :=
  if text.head? = some '+' ∨ text.head? = some '-' then text.tail else text

/-- `ss >> value` for an `unsigned long long`. A number that does not fit becomes the largest
one, a minus sign negates modulo 2^64, and what is no number becomes 0. -/
def readULL (ss : StringStream) (value : BitVec 64) : BitVec 64 × StringStream :=
  let text := ss.rest.dropWhile isSpace
  let digits := (unsigned text).takeWhile Char.isDigit
  let rest := (unsigned text).dropWhile Char.isDigit
  let n := Nat.ofDigitChars 10 digits 0
  if ss.failed then (value, ss)
  else if text = [] then (value, ⟨[], true⟩)
  else if digits = [] then (0, ⟨rest, true⟩)
  else if n ≥ 2 ^ 64 then (BitVec.allOnes 64, ⟨rest, true⟩)
  else (if text.head? = some '-' then -BitVec.ofNat 64 n else BitVec.ofNat 64 n, ⟨rest, false⟩)

/-- `n` words into the same variable. -/
def readWords (n : ℕ) (value : List Char) (ss : StringStream) : List Char × StringStream :=
  (fun p => p.2.readWord p.1)^[n] (value, ss)

variable {n : ℕ} {g w l : List Char} {value : List Char} {ss : StringStream}

theorem readWords_succ : readWords (n + 1) value ss =
    readWords n (ss.readWord value).1 (ss.readWord value).2 := by
  rw [readWords, Function.iterate_succ_apply]
  rfl

/-! ### A word and a number in front -/

theorem readWord_word (hg : Blank isSpace g) (hw : IsWord isSpace w) (hl : Stops isSpace l) :
    (new (g ++ (w ++ l))).readWord value = (w, new l) := by
  have hne : w ++ l ≠ [] := List.append_ne_nil_of_left_ne_nil hw.ne_nil l
  simp only [readWord, new, Words.dropWhile_blank hg hw, Bool.false_eq_true, if_false, hne,
    Words.takeWhile_solid hw hl, Words.dropWhile_solid hw hl]

/-- Words that are separated by single blanks. -/
theorem readWords_flatMap (ws : List (List Char)) (hws : ∀ w ∈ ws, IsWord isSpace w)
    (hl : Stops isSpace l) (value : List Char) :
    (readWords ws.length value (new (ws.flatMap (' ' :: ·) ++ l))).2 = new l := by
  induction ws generalizing value with
  | nil => rfl
  | cons w ws ih =>
    obtain ⟨hw, hws⟩ := List.forall_mem_cons.mp hws
    have hstops : Stops isSpace (ws.flatMap (' ' :: ·) ++ l) := by
      cases ws with
      | nil => exact hl
      | cons v ws => exact Words.stops_cons rfl
    have hblank : Blank isSpace [' '] := by simp [Blank, isSpace]
    have hsplit : (w :: ws).flatMap (' ' :: ·) ++ l =
        [' '] ++ (w ++ (ws.flatMap (' ' :: ·) ++ l)) := by simp
    rw [hsplit, List.length_cons, readWords_succ, readWord_word hblank hw hstops]
    exact ih hws w

theorem isSpace_of_isDigit {c : Char} (h : c.isDigit = true) : isSpace c = false := by
  have hlow : 48 ≤ c.toNat := by
    simp only [Char.isDigit, Bool.and_eq_true, decide_eq_true_eq, UInt32.le_iff_toNat_le] at h
    exact h.1
  have hne : c ≠ ' ' := by
    rintro rfl
    cases h
  simp only [isSpace, Bool.or_eq_false_iff, beq_eq_false_iff_ne, Bool.and_eq_false_iff,
    decide_eq_false_iff_not]
  exact ⟨hne, .inr (by omega)⟩

theorem isDigit_of_isSpace {c : Char} (h : isSpace c = true) : c.isDigit = false := by
  cases hd : c.isDigit with
  | false => rfl
  | true => rw [isSpace_of_isDigit hd] at h; cases h

theorem isDigit_of_mem_toDigits {c : Char} (h : c ∈ Nat.toDigits 10 n) : c.isDigit = true :=
  Nat.isDigit_of_mem_toDigits (by decide) (by decide) h

/-- A number in decimal notation is a word. -/
theorem isWord_toDigits (n : ℕ) : IsWord isSpace (Nat.toDigits 10 n) where
  ne_nil := Nat.toDigits_ne_nil
  solid _ hc := isSpace_of_isDigit (isDigit_of_mem_toDigits hc)

/-- A number without a sign is read as it was written. -/
theorem readULL_toDigits (hg : Blank isSpace g) (hl : Stops isSpace l) (v value : BitVec 64) :
    (new (g ++ (Nat.toDigits 10 v.toNat ++ l))).readULL value = (v, new l) := by
  have hw := isWord_toDigits v.toNat
  have hsign : ∀ c ∈ (Nat.toDigits 10 v.toNat ++ l).head?, c.isDigit = true := by
    obtain ⟨c, text, htext, -⟩ := hw.exists_cons
    rw [htext]
    rintro _ ⟨⟩
    exact isDigit_of_mem_toDigits (htext ▸ List.mem_cons_self)
  have hplus : (Nat.toDigits 10 v.toNat ++ l).head? ≠ some '+' := fun h => nomatch hsign _ h
  have hminus : (Nat.toDigits 10 v.toNat ++ l).head? ≠ some '-' := fun h => nomatch hsign _ h
  have htake : (Nat.toDigits 10 v.toNat ++ l).takeWhile Char.isDigit =
      Nat.toDigits 10 v.toNat := by
    rw [Words.takeWhile_word (fun _ => isDigit_of_isSpace) hl, List.takeWhile_eq_self_iff]
    exact fun _ => isDigit_of_mem_toDigits
  have hdrop : (Nat.toDigits 10 v.toNat ++ l).dropWhile Char.isDigit = l := by
    rw [Words.dropWhile_word (fun _ => isDigit_of_isSpace) hl,
      List.dropWhile_eq_nil_iff.mpr fun _ => isDigit_of_mem_toDigits, List.nil_append]
  have hne : Nat.toDigits 10 v.toNat ++ l ≠ [] := List.append_ne_nil_of_left_ne_nil hw.ne_nil l
  simp only [readULL, unsigned, new, Words.dropWhile_blank hg hw, hplus, hminus, or_self, if_false,
    Bool.false_eq_true, hne, htake, hdrop, hw.ne_nil, Nat.ofDigitChars_ten_toDigits,
    Nat.not_le.mpr v.isLt, BitVec.ofNat_toNat, BitVec.setWidth_eq]

/-! ### What the front part decides -/

theorem readWord_append (h : 0 < ended isSpace l) :
    ∃ w rest, ended isSpace l = ended isSpace rest + 1 ∧
      ∀ m value, (new (l ++ m)).readWord value = (w, new (rest ++ m)) := by
  obtain ⟨g, w, rest, rfl, hg, hw, hne, hrest, hcount⟩ := Words.exists_word h
  refine ⟨w, rest, hcount, fun m value => ?_⟩
  rw [List.append_assoc, List.append_assoc, readWord_word hg hw (hrest.append hne)]

theorem readWords_append (h : n ≤ ended isSpace l) (value : List Char) :
    ∃ w rest, ended isSpace l = ended isSpace rest + n ∧
      ∀ m, readWords n value (new (l ++ m)) = (w, new (rest ++ m)) := by
  induction n generalizing l value with
  | zero => exact ⟨value, l, rfl, fun _ => rfl⟩
  | succ n ih =>
    obtain ⟨w, rest, hcount, hread⟩ := readWord_append (Nat.zero_lt_of_lt h)
    obtain ⟨w', rest', hcount', hread'⟩ := @ih rest (by omega) w
    refine ⟨w', rest', by omega, fun m => ?_⟩
    rw [readWords_succ, hread, hread']

theorem unsigned_append (hne : w ≠ []) : unsigned (w ++ l) = unsigned w ++ l := by
  have hhead : (w ++ l).head? = w.head? := List.head?_append_of_ne_nil w hne
  by_cases hsign : w.head? = some '+' ∨ w.head? = some '-'
  · rw [unsigned, unsigned, if_pos hsign, if_pos (hhead ▸ hsign), List.tail_append_of_ne_nil hne]
  · rw [unsigned, unsigned, if_neg hsign, if_neg (hhead ▸ hsign)]

/-- The word in front decides what is read, be it a number or not. -/
theorem readULL_append (h : 0 < ended isSpace l) :
    ∃ v rest failed, ended isSpace l ≤ ended isSpace rest + 1 ∧
      ∀ m value, (new (l ++ m)).readULL value = (v, ⟨rest ++ m, failed⟩) := by
  obtain ⟨g, w, r, rfl, hg, hw, hne, hr, hcount⟩ := Words.exists_word h
  have hcount' : ended isSpace r ≤
      ended isSpace ((unsigned w).dropWhile Char.isDigit ++ r) := Words.ended_le_append_left _ r
  refine ⟨((new w).readULL 0).1, (unsigned w).dropWhile Char.isDigit ++ r,
    ((new w).readULL 0).2.failed, by omega, fun m value => ?_⟩
  have hstops : Stops isSpace (r ++ m) := hr.append hne
  have hself : w.dropWhile isSpace = w := by
    have := Words.dropWhile_blank (l := []) (g := []) (by simp [Blank]) hw
    simpa using this
  have hhead : (w ++ (r ++ m)).head? = w.head? := List.head?_append_of_ne_nil w hw.ne_nil
  have hsome : w ++ (r ++ m) ≠ [] := List.append_ne_nil_of_left_ne_nil hw.ne_nil _
  simp only [readULL, new, List.append_assoc, Words.dropWhile_blank hg hw, hself,
    Bool.false_eq_true, if_false, hsome, hw.ne_nil, unsigned_append hw.ne_nil, hhead,
    Words.takeWhile_word (fun _ => isDigit_of_isSpace) hstops,
    Words.dropWhile_word (fun _ => isDigit_of_isSpace) hstops]
  split_ifs <;> rfl

theorem readULL_failed {rest : List Char} (value : BitVec 64) :
    (⟨rest, true⟩ : StringStream).readULL value = (value, ⟨rest, true⟩) := rfl

end StringStream

end ReversalBench
