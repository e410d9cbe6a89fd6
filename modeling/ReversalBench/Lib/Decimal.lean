import Mathlib.Algebra.Order.Floor.Ring
import Mathlib.Data.Rat.Floor
import Mathlib.Data.List.TakeWhile
import Mathlib.Tactic.Linarith
import Mathlib.Tactic.FieldSimp
import Mathlib.Tactic.NormNum

/-! Numbers in decimal notation: integers, and rational numbers with a fixed number of decimals,
rounded to nearest with ties to even (`std::fixed`, `%.3f`). What is read back differs from
the number by at most half a unit of the last decimal. -/

namespace ReversalBench.Decimal

/-! ### Rounding -/

def roundHalfEven (q : ℚ) : ℤ :=
  let n := ⌊q⌋
  let r := q - n
  if r < 1 / 2 then n else if 1 / 2 < r then n + 1 else if n % 2 = 0 then n else n + 1

variable {p n : ℕ} {q r : ℚ} {z : ℤ}

/-- One of the two integers next to the number, and not the farther one. -/
theorem roundHalfEven_cases (q : ℚ) :
    (roundHalfEven q = ⌊q⌋ ∧ q - ⌊q⌋ ≤ 1 / 2) ∨
      (roundHalfEven q = ⌊q⌋ + 1 ∧ 1 / 2 ≤ q - ⌊q⌋) := by
  unfold roundHalfEven
  dsimp only
  split_ifs with hlow hhigh heven
  · exact .inl ⟨rfl, hlow.le⟩
  · exact .inr ⟨rfl, hhigh.le⟩
  · exact .inl ⟨rfl, not_lt.mp hhigh⟩
  · exact .inr ⟨rfl, not_lt.mp hlow⟩

theorem abs_roundHalfEven_sub_le (q : ℚ) : |(roundHalfEven q : ℚ) - q| ≤ 1 / 2 := by
  have hfloor := Int.floor_le q
  have hlt := Int.lt_floor_add_one q
  rw [abs_le]
  rcases roundHalfEven_cases q with ⟨h, hle⟩ | ⟨h, hle⟩
  · rw [h]
    constructor <;> linarith
  · rw [h]
    push_cast
    constructor <;> linarith

theorem roundHalfEven_intCast (z : ℤ) : roundHalfEven z = z := by
  rcases roundHalfEven_cases z with ⟨h, -⟩ | ⟨-, hle⟩
  · rw [h, Int.floor_intCast]
  · rw [Int.floor_intCast, sub_self] at hle
    norm_num at hle

/-- Two numbers that are rounded the wrong way round are both half-way between the same
integers. -/
theorem roundHalfEven_mono (h : q ≤ r) : roundHalfEven q ≤ roundHalfEven r := by
  by_contra hlt
  have hstep : (roundHalfEven r : ℚ) + 1 ≤ roundHalfEven q := by exact_mod_cast not_le.mp hlt
  have hq := (abs_le.mp (abs_roundHalfEven_sub_le q)).2
  have hr := (abs_le.mp (abs_roundHalfEven_sub_le r)).1
  have heq : q = r := by linarith
  rw [heq] at hlt
  exact hlt le_rfl

theorem roundHalfEven_nonneg (h : 0 ≤ q) : 0 ≤ roundHalfEven q := by
  have hfloor : 0 ≤ ⌊q⌋ := Int.floor_nonneg.mpr h
  rcases roundHalfEven_cases q with ⟨h, -⟩ | ⟨h, -⟩ <;> omega

theorem roundHalfEven_nonpos (h : q < 0) : roundHalfEven q ≤ 0 := by
  have hfloor : ⌊q⌋ < 0 := Int.floor_lt.mpr (by exact_mod_cast h)
  rcases roundHalfEven_cases q with ⟨h, -⟩ | ⟨h, -⟩ <;> omega

/-- A number rounded to a number of decimals. -/
def rounded (p : ℕ) (q : ℚ) : ℚ := (roundHalfEven (q * 10 ^ p) : ℚ) / 10 ^ p

theorem rounded_mono (p : ℕ) (h : q ≤ r) : rounded p q ≤ rounded p r := by
  have hpow : (0 : ℚ) ≤ 10 ^ p := by positivity
  refine div_le_div_of_nonneg_right ?_ hpow
  exact_mod_cast roundHalfEven_mono (mul_le_mul_of_nonneg_right h hpow)

/-! ### Text -/

def int (z : ℤ) : List Char := (if z < 0 then ['-'] else []) ++ Nat.toDigits 10 z.natAbs

/-- `n` with leading zeros, in `p` digits if it has no more. -/
def padded (p n : ℕ) : List Char :=
  List.replicate (p - (Nat.toDigits 10 n).length) '0' ++ Nat.toDigits 10 n

/-- `q` with `p` decimals. -/
def fixed (p : ℕ) (q : ℚ) : List Char :=
  let n := (roundHalfEven (q * 10 ^ p)).natAbs
  (if q < 0 then ['-'] else []) ++ (Nat.toDigits 10 (n / 10 ^ p) ++ '.' :: padded p (n % 10 ^ p))

def readNat (t : List Char) : Option ℕ :=
  if t ≠ [] ∧ t.all Char.isDigit then some (Nat.ofDigitChars 10 t 0) else none

/-- The sign in front of a number, and the rest. -/
def signed (t : List Char) : ℤ × List Char :=
  if t.head? = some '-' then (-1, t.tail) else (1, t)

def readInt (t : List Char) : Option ℤ :=
  (readNat (signed t).2).map fun n : ℕ => (signed t).1 * n

/-- The digits in front of the point and behind it, read as one number. -/
def readFixed (t : List Char) : Option ℚ :=
  let u := (signed t).2
  let decimals := (u.dropWhile (· ≠ '.')).tail
  (readNat (u.takeWhile (· ≠ '.') ++ decimals)).map fun n : ℕ =>
    (signed t).1 * n / 10 ^ decimals.length

/-! ### Reading back -/

theorem isDigit_of_mem {c : Char} (h : c ∈ Nat.toDigits 10 n) : c.isDigit = true :=
  Nat.isDigit_of_mem_toDigits (by decide) (by decide) h

theorem isDigit_of_mem_padded {c : Char} (h : c ∈ padded p n) : c.isDigit = true := by
  rcases List.mem_append.mp h with h | h
  · rw [(List.mem_replicate.mp h).2]
    rfl
  · exact isDigit_of_mem h

theorem readNat_digits (n : ℕ) : readNat (Nat.toDigits 10 n) = some n := by
  rw [readNat, if_pos, Nat.ofDigitChars_ten_toDigits]
  exact ⟨Nat.toDigits_ne_nil, List.all_eq_true.mpr fun _ => isDigit_of_mem⟩

/-- A sign is not taken for a digit, nor a digit for a sign. -/
theorem signed_append {negative : Bool} {t : List Char} (ht : t.head? ≠ some '-') :
    signed ((if negative then ['-'] else []) ++ t) = (if negative then -1 else 1, t) := by
  cases negative with
  | true => rfl
  | false => simp [signed, ht]

theorem head?_digits_ne (n : ℕ) (l : List Char) : (Nat.toDigits 10 n ++ l).head? ≠ some '-' := by
  obtain ⟨c, t, hct⟩ := List.exists_cons_of_ne_nil (Nat.toDigits_ne_nil (n := n) (b := 10))
  have hdigit : c.isDigit = true := isDigit_of_mem (n := n) (hct ▸ List.mem_cons_self)
  rw [hct, List.cons_append, List.head?_cons]
  intro h
  obtain rfl := Option.some.inj h
  cases hdigit

theorem readInt_int (z : ℤ) : readInt (int z) = some z := by
  have hhead := head?_digits_ne z.natAbs []
  rw [List.append_nil] at hhead
  have hsigned := @signed_append (decide (z < 0)) _ hhead
  simp only [decide_eq_true_eq] at hsigned
  rw [readInt, int, hsigned, readNat_digits]
  simp only [Option.map_some, Option.some.injEq]
  split <;> omega

theorem length_padded (hn : n < 10 ^ p) (hp : 0 < p) : (padded p n).length = p := by
  have hle := (Nat.length_toDigits_le_iff (n := n) (by decide : 1 < 10) hp).mpr hn
  simp only [padded, List.length_append, List.length_replicate]
  omega

theorem ofDigitChars_padded (init : ℕ) (hn : n < 10 ^ p) (hp : 0 < p) :
    Nat.ofDigitChars 10 (padded p n) init = 10 ^ p * init + n := by
  rw [Nat.ofDigitChars_eq_ofDigitChars_zero, length_padded hn hp, padded,
    Nat.ofDigitChars_append, Nat.ofDigitChars_replicate_zero, Nat.mul_zero,
    Nat.ofDigitChars_ten_toDigits]

theorem point_ne {c : Char} (h : c.isDigit = true) : decide (c ≠ '.') = true := by
  rw [decide_eq_true_iff]
  rintro rfl
  cases h

/-- The digits stop at the point. -/
theorem point_digits (n : ℕ) (l : List Char) :
    (Nat.toDigits 10 n ++ '.' :: l).takeWhile (· ≠ '.') = Nat.toDigits 10 n ∧
      (Nat.toDigits 10 n ++ '.' :: l).dropWhile (· ≠ '.') = '.' :: l := by
  have hne : ∀ c ∈ Nat.toDigits 10 n, decide (c ≠ '.') = true := fun c hc =>
    point_ne (isDigit_of_mem hc)
  rw [List.takeWhile_append_of_pos hne, List.dropWhile_append_of_pos hne]
  simp

theorem readFixed_fixed (hp : 0 < p) (q : ℚ) :
    readFixed (fixed p q) = some (rounded p q) := by
  unfold rounded
  set z := roundHalfEven (q * 10 ^ p) with hz
  have hlt : z.natAbs % 10 ^ p < 10 ^ p := Nat.mod_lt _ (by positivity)
  have hsigned := @signed_append (decide (q < 0)) _
    (head?_digits_ne (z.natAbs / 10 ^ p) ('.' :: padded p (z.natAbs % 10 ^ p)))
  simp only [decide_eq_true_eq] at hsigned
  obtain ⟨htake, hdrop⟩ := point_digits (z.natAbs / 10 ^ p) (padded p (z.natAbs % 10 ^ p))
  have hread : readNat (Nat.toDigits 10 (z.natAbs / 10 ^ p) ++ padded p (z.natAbs % 10 ^ p)) =
      some z.natAbs := by
    rw [readNat, if_pos, Nat.ofDigitChars_append, Nat.ofDigitChars_ten_toDigits,
      ofDigitChars_padded _ hlt hp, Nat.div_add_mod]
    refine ⟨List.append_ne_nil_of_left_ne_nil Nat.toDigits_ne_nil _, List.all_eq_true.mpr ?_⟩
    intro c hc
    exact (List.mem_append.mp hc).elim isDigit_of_mem isDigit_of_mem_padded
  have habs : ((if q < 0 then -1 else 1 : ℤ) : ℚ) * z.natAbs = z := by
    have hpow : (0 : ℚ) < 10 ^ p := by positivity
    split
    next hneg =>
      have hle : z ≤ 0 := roundHalfEven_nonpos (mul_neg_of_neg_of_pos hneg hpow)
      rw [← Int.cast_natCast, ← Int.cast_mul]
      exact congrArg Int.cast (by omega)
    next hpos =>
      have hle : 0 ≤ z := roundHalfEven_nonneg (mul_nonneg (not_lt.mp hpos) hpow.le)
      rw [← Int.cast_natCast, ← Int.cast_mul]
      exact congrArg Int.cast (by omega)
  simp only [readFixed, fixed, ← hz, hsigned, htake, hdrop, List.tail_cons, hread,
    Option.map_some, length_padded hlt hp, habs]

/-- What is read back is within half a unit of the last decimal. -/
theorem abs_readFixed_sub_le (p : ℕ) (q : ℚ) :
    |rounded p q - q| ≤ 1 / 2 / 10 ^ p := by
  unfold rounded
  have hpow : (0 : ℚ) < 10 ^ p := by positivity
  have hsplit : (roundHalfEven (q * 10 ^ p) : ℚ) / 10 ^ p - q =
      ((roundHalfEven (q * 10 ^ p) : ℚ) - q * 10 ^ p) / 10 ^ p := by
    field_simp
  rw [hsplit, abs_div, abs_of_pos hpow]
  exact div_le_div_of_nonneg_right (abs_roundHalfEven_sub_le _) hpow.le

/-- A number that needs no more decimals is read back as it was. -/
theorem readFixed_exact (hp : 0 < p) (hz : q * 10 ^ p = z) : readFixed (fixed p q) = some q := by
  have hpow : (10 : ℚ) ^ p ≠ 0 := by positivity
  rw [readFixed_fixed hp, rounded, hz, roundHalfEven_intCast, ← hz, mul_div_cancel_right₀ _ hpow]

/-- An integer is a number without a point. -/
theorem readFixed_digits (n : ℕ) : readFixed (Nat.toDigits 10 n) = some (n : ℚ) := by
  have hne : ∀ c ∈ Nat.toDigits 10 n, decide (c ≠ '.') = true := fun c hc =>
    point_ne (isDigit_of_mem hc)
  have hhead := head?_digits_ne n []
  rw [List.append_nil] at hhead
  have hsigned : signed (Nat.toDigits 10 n) = (1, Nat.toDigits 10 n) :=
    @signed_append false _ hhead
  have hdrop : (Nat.toDigits 10 n).dropWhile (· ≠ '.') = [] := List.dropWhile_eq_nil_iff.mpr hne
  have htake : (Nat.toDigits 10 n).takeWhile (· ≠ '.') = Nat.toDigits 10 n :=
    List.takeWhile_eq_self_iff.mpr hne
  simp only [readFixed, hsigned, htake, hdrop, List.tail_nil, List.append_nil, readNat_digits,
    Option.map_some, List.length_nil, pow_zero, div_one, Int.cast_one, one_mul]

/-! ### The characters of a number -/

/-- Digits, signs and points. -/
def Numeral (t : List Char) : Prop := ∀ c ∈ t, c.isDigit = true ∨ c = '-' ∨ c = '.'

theorem numeral_digits (n : ℕ) : Numeral (Nat.toDigits 10 n) := fun _ hc => .inl (isDigit_of_mem hc)

theorem Numeral.append {s t : List Char} (hs : Numeral s) (ht : Numeral t) : Numeral (s ++ t) :=
  fun c hc => (List.mem_append.mp hc).elim (hs c) (ht c)

theorem numeral_sign {negative : Prop} [Decidable negative] :
    Numeral (if negative then ['-'] else []) := by
  intro c hc
  split at hc
  · exact .inr (.inl (List.mem_singleton.mp hc))
  · cases hc

theorem numeral_int (z : ℤ) : Numeral (int z) := numeral_sign.append (numeral_digits _)

theorem numeral_fixed (p : ℕ) (q : ℚ) : Numeral (fixed p q) := by
  refine numeral_sign.append ((numeral_digits _).append fun c hc => ?_)
  rcases List.mem_cons.mp hc with rfl | hc
  · exact .inr (.inr rfl)
  · exact .inl (isDigit_of_mem_padded hc)

/-- A number has no other character in it. -/
theorem Numeral.not_mem {t : List Char} (h : Numeral t) {c : Char}
    (hc : c.isDigit = false ∧ c ≠ '-' ∧ c ≠ '.') : c ∉ t := by
  intro hmem
  rcases h c hmem with hdigit | rfl | rfl
  · rw [hc.1] at hdigit
    cases hdigit
  · exact hc.2.1 rfl
  · exact hc.2.2 rfl

end ReversalBench.Decimal
