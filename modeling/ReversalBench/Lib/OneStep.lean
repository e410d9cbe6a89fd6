import Mathlib

/-! One-step methods for the linear equation `u' = l u + f` over the complex numbers: the method of
Euler and the classical one of Runge and Kutta. A step multiplies the difference of two
values by a number that only depends on `h l`, which bounds how errors grow; how much is
lost in one step follows from the Taylor formula. -/

namespace ReversalBench.OneStep

open Finset (range)
open Set (Icc)
open scoped Nat

/-! ### Errors that add up -/

section Errors

variable {E : Type*} [SeminormedAddCommGroup E] {step : ℝ → E → E} {h x : ℝ} {w : E}

/-- `n` steps from `x` and `w`. -/
def steps (step : ℝ → E → E) (h x : ℝ) (w : E) : ℕ → E
  | 0 => w
  | n + 1 => step (x + n * h) (steps step h x w n)

/-- Steps that do not drive values apart add up what each of them loses. -/
theorem norm_steps_sub_le (hstep : ∀ x v w, ‖step x v - step x w‖ ≤ ‖v - w‖) {u : ℝ → E}
    {loss : ℝ} (hloss : ∀ n : ℕ, ‖step (x + n * h) (u (x + n * h)) - u (x + n * h + h)‖ ≤ loss)
    (n : ℕ) : ‖steps step h x (u x) n - u (x + n * h)‖ ≤ n * loss := by
  induction n with
  | zero => simp [steps]
  | succ n ih =>
    have hnext : x + (n + 1 : ℕ) * h = x + n * h + h := by
      push_cast
      ring
    have hsplit : steps step h x (u x) (n + 1) - u (x + (n + 1 : ℕ) * h) =
        (step (x + n * h) (steps step h x (u x) n) - step (x + n * h) (u (x + n * h))) +
          (step (x + n * h) (u (x + n * h)) - u (x + n * h + h)) := by
      rw [sub_add_sub_cancel, steps, hnext]
    rw [hsplit, Nat.cast_succ, add_one_mul]
    exact (norm_add_le _ _).trans (add_le_add ((hstep _ _ _).trans ih) (hloss n))

end Errors

/-! ### The methods -/

variable (l : ℂ) (f : ℝ → ℂ) (h x : ℝ) (v w : ℂ)

noncomputable def euler : ℂ := w + h * (l * w + f x)

/-- An increment that is taken at the fraction `c` of the step, from another one. -/
noncomputable def stage (c : ℝ) (k : ℂ) : ℂ := h * (l * (w + c * k) + f (x + c * h))

/-- Four increments, the inner ones at the fraction `c`, with weights. The method of Runge and Kutta
takes them in the middle, with the weights of Simpson. -/
noncomputable def fourStage (c outer inner : ℝ) : ℂ :=
  let k₁ := stage l f h x w 0 0
  let k₂ := stage l f h x w c k₁
  let k₃ := stage l f h x w c k₂
  let k₄ := stage l f h x w 1 k₃
  w + (outer * k₁ + inner * k₂ + inner * k₃ + outer * k₄)

/-- How a step of Runge and Kutta multiplies differences: the exponential function, up to its
fourth term. -/
noncomputable def growth (z : ℂ) : ℂ := ∑ i ∈ range 5, z ^ i / i !

theorem growth_eq (z : ℂ) : growth z = 1 + z + z ^ 2 / 2 + z ^ 3 / 6 + z ^ 4 / 24 := by
  simp [growth, Finset.sum_range_succ, Nat.factorial]

theorem euler_sub : euler l f h x v - euler l f h x w = (1 + h * l) * (v - w) := by
  simp only [euler]
  ring

theorem rungeKutta_sub : fourStage l f h x v (1 / 2) (1 / 6) (1 / 3) -
    fourStage l f h x w (1 / 2) (1 / 6) (1 / 3) = growth (h * l) * (v - w) := by
  simp only [fourStage, stage, growth_eq]
  push_cast
  ring

variable {l f h x v w}

/-- The difference of two values after `n` steps. -/
theorem steps_sub {step : ℝ → ℂ → ℂ} {r : ℂ} (hstep : ∀ x v w, step x v - step x w = r * (v - w))
    (n : ℕ) : steps step h x v n - steps step h x w n = r ^ n * (v - w) := by
  induction n with
  | zero => simp [steps]
  | succ n ih =>
    rw [steps, steps, hstep, ih, pow_succ]
    ring

/-! ### The loss of a step -/

/-- A function with its derivatives, bounded to the right of 0. -/
structure Smooth (u : ℕ → ℝ → ℂ) (M : ℝ) : Prop where
  hasDerivAt : ∀ k x, HasDerivAt (u k) (u (k + 1) x) x
  bound : ∀ k ≤ 5, ∀ x, 0 ≤ x → ‖u k x‖ ≤ M

variable {u : ℕ → ℝ → ℂ} {M : ℝ}

theorem iteratedDeriv_eq (hu : ∀ k x, HasDerivAt (u k) (u (k + 1) x) x) (k n : ℕ) :
    iteratedDeriv n (u k) = u (k + n) := by
  induction n with
  | zero => exact iteratedDeriv_zero
  | succ n ih =>
    rw [iteratedDeriv_succ, ih]
    funext x
    exact (hu (k + n) x).deriv

theorem contDiff (hu : ∀ k x, HasDerivAt (u k) (u (k + 1) x) x) (k n : ℕ) :
    ContDiff ℝ n (u k) := by
  apply contDiff_of_differentiable_iteratedDeriv
  intro m _
  rw [iteratedDeriv_eq hu]
  exact fun x => (hu (k + m) x).differentiableAt

/-- The Taylor formula, for a derivative of the function. -/
theorem Smooth.taylor (hu : Smooth u M) {k n : ℕ} (hkn : k + n < 5) (hx : 0 ≤ x) (hh : 0 < h) :
    ∃ r : ℂ, u k (x + h) = ∑ i ∈ range (n + 1), (h ^ i / i ! : ℝ) * u (k + i) x + r ∧
      ‖r‖ ≤ M * h ^ (n + 1) / n ! := by
  have hlt : x < x + h := lt_add_of_pos_right x hh
  have hderiv : ∀ m, ∀ y ∈ Icc x (x + h),
      iteratedDerivWithin m (u k) (Icc x (x + h)) y = u (k + m) y := by
    intro m y hy
    rw [iteratedDerivWithin_eq_iteratedDeriv (uniqueDiffOn_Icc hlt)
      (contDiff hu.hasDerivAt k m).contDiffAt hy, iteratedDeriv_eq hu.hasDerivAt]
  have hbound : ∀ y ∈ Icc x (x + h),
      ‖iteratedDerivWithin (n + 1) (u k) (Icc x (x + h)) y‖ ≤ M := by
    intro y hy
    rw [hderiv _ y hy]
    exact hu.bound _ (by omega) y (hx.trans hy.1)
  have htaylor := taylor_mean_remainder_bound hlt.le
    (contDiff hu.hasDerivAt k (n + 1)).contDiffOn (Set.right_mem_Icc.mpr hlt.le) hbound
  have hsum : taylorWithinEval (u k) n (Icc x (x + h)) x (x + h) =
      ∑ i ∈ range (n + 1), (h ^ i / i ! : ℝ) * u (k + i) x := by
    rw [taylor_within_apply, add_sub_cancel_left]
    apply Finset.sum_congr rfl
    intro i _
    rw [hderiv i x (Set.left_mem_Icc.mpr hlt.le), Complex.real_smul, div_eq_inv_mul]
  rw [hsum, add_sub_cancel_left] at htaylor
  exact ⟨_, (add_sub_cancel _ _).symm, htaylor⟩

/-- A step of Euler loses a quantity of second order. -/
theorem Smooth.euler (hu : Smooth u M) (hf : ∀ x, u 1 x = l * u 0 x + f x) (hx : 0 ≤ x)
    (hh : 0 < h) : ‖OneStep.euler l f h x (u 0 x) - u 0 (x + h)‖ ≤ M * h ^ 2 := by
  obtain ⟨r, hr, hle⟩ := hu.taylor (k := 0) (n := 1) (by decide) hx hh
  have hloss : OneStep.euler l f h x (u 0 x) - u 0 (x + h) = -r := by
    rw [hr, OneStep.euler, ← hf]
    simp [Finset.sum_range_succ]
  rw [hloss, norm_neg]
  simpa using hle

theorem norm_combination_le {a b c d p q r s : ℂ} {m B : ℝ} (hB : 0 ≤ B)
    (hcoeff : ‖a‖ + ‖b‖ + ‖c‖ + ‖d‖ ≤ m) (hp : ‖p‖ ≤ B) (hq : ‖q‖ ≤ B) (hr : ‖r‖ ≤ B)
    (hs : ‖s‖ ≤ B) : ‖a * p + b * q + c * r + d * s‖ ≤ m * B := by
  have hterms : ‖a * p + b * q + c * r + d * s‖ ≤ ‖a * p‖ + ‖b * q‖ + ‖c * r‖ + ‖d * s‖ :=
    norm_add₄_le
  have hsum : ‖a‖ * B + ‖b‖ * B + ‖c‖ * B + ‖d‖ * B ≤ m * B := by
    rw [← add_mul, ← add_mul, ← add_mul]
    exact mul_le_mul_of_nonneg_right hcoeff hB
  have hap := norm_mul_le_of_le (le_refl ‖a‖) hp
  have hbq := norm_mul_le_of_le (le_refl ‖b‖) hq
  have hcr := norm_mul_le_of_le (le_refl ‖c‖) hr
  have hds := norm_mul_le_of_le (le_refl ‖d‖) hs
  linarith

/-- The function and its derivative, expanded up to the fourth derivative. -/
theorem Smooth.expand (hu : Smooth u M) (hM : 0 ≤ M) (hx : 0 ≤ x) {d : ℝ} (hd : 0 < d)
    (hdh : d ≤ h) : ∃ r s : ℂ,
      u 0 (x + d) = u 0 x + d * u 1 x + d ^ 2 / 2 * u 2 x + d ^ 3 / 6 * u 3 x +
        d ^ 4 / 24 * u 4 x + r ∧
      u 1 (x + d) = u 1 x + d * u 2 x + d ^ 2 / 2 * u 3 x + d ^ 3 / 6 * u 4 x + s ∧
      ‖r‖ ≤ M * h ^ 5 ∧ ‖h * s‖ ≤ M * h ^ 5 := by
  obtain ⟨r, hr, hr_le⟩ := hu.taylor (k := 0) (n := 4) (by decide) hx hd
  obtain ⟨s, hs, hs_le⟩ := hu.taylor (k := 1) (n := 3) (by decide) hx hd
  have hh : 0 ≤ h := hd.le.trans hdh
  refine ⟨r, s, ?_, ?_, ?_, ?_⟩
  · simpa [Finset.sum_range_succ, Nat.factorial] using hr
  · simpa [Finset.sum_range_succ, Nat.factorial] using hs
  · calc ‖r‖ ≤ M * d ^ 5 / (4 ! : ℕ) := hr_le
      _ ≤ M * d ^ 5 := div_le_self (by positivity) (by norm_num [Nat.factorial])
      _ ≤ M * h ^ 5 := by gcongr
  · calc ‖(h : ℂ) * s‖ = h * ‖s‖ := by rw [norm_mul, Complex.norm_of_nonneg hh]
      _ ≤ h * (M * d ^ 4 / (3 ! : ℕ)) := by gcongr
      _ ≤ h * (M * d ^ 4) := by
        gcongr
        exact div_le_self (by positivity) (by norm_num [Nat.factorial])
      _ ≤ h * (M * h ^ 4) := by gcongr
      _ = M * h ^ 5 := by ring

/-- A step of Runge and Kutta loses a quantity of fifth order. -/
theorem Smooth.rungeKutta (hu : Smooth u M) (hf : ∀ x, u 1 x = l * u 0 x + f x) (hx : 0 ≤ x)
    (hh : 0 < h) (hone : h ≤ 1) :
    ‖fourStage l f h x (u 0 x) (1 / 2) (1 / 6) (1 / 3) - u 0 (x + h)‖ ≤
      2 * (1 + ‖l‖ + ‖l‖ ^ 2 + ‖l‖ ^ 3) * (M * h ^ 5) := by
  have hM : 0 ≤ M := (norm_nonneg _).trans (hu.bound 0 (by decide) x hx)
  obtain ⟨r₀, r₁, hr₀, hr₁, hr₀B, hr₁B⟩ := hu.expand hM hx hh le_rfl
  obtain ⟨s₀, s₁, hs₀, hs₁, hs₀B, hs₁B⟩ := hu.expand hM hx (half_pos hh) (half_le_self hh.le)
  have hf' : ∀ x, f x = u 1 x - l * u 0 x := fun x => by rw [hf, add_sub_cancel_left]
  push_cast at hs₀ hs₁
  -- The terms of lower order cancel.
  have hloss : 6 * (fourStage l f h x (u 0 x) (1 / 2) (1 / 6) (1 / 3) - u 0 (x + h)) =
      (-6 * r₀ + 4 * (h * s₁) + 1 * (h * r₁) + 0 * 0) +
      l * (-1 / 96 * (h ^ 5 * u 4 x) + -4 * h * s₀ + 2 * h * (h * s₁) + -h * r₀) +
      l ^ 2 * (1 / 48 * (h ^ 5 * u 3 x) + h / 192 * (h ^ 5 * u 4 x) + -2 * h ^ 2 * s₀ +
        h ^ 2 / 2 * (h * s₁)) +
      l ^ 3 * (-1 / 16 * (h ^ 5 * u 2 x) + -h / 96 * (h ^ 5 * u 3 x) +
        -h ^ 2 / 768 * (h ^ 5 * u 4 x) + -h ^ 3 / 2 * s₀) := by
    have hhalf : 1 / 2 * h = h / 2 := one_div_mul_eq_div 2 h
    simp only [fourStage, stage, hhalf, zero_mul, add_zero, one_mul, hf', hr₀, hr₁, hs₀, hs₁]
    push_cast
    ring
  have hB : 0 ≤ M * h ^ 5 := by positivity
  have hp : ∀ k ≤ 5, ‖(h : ℂ) ^ 5 * u k x‖ ≤ M * h ^ 5 := by
    intro k hk
    rw [norm_mul, norm_pow, Complex.norm_of_nonneg hh.le, mul_comm]
    exact mul_le_mul_of_nonneg_right (hu.bound k hk x hx) (by positivity)
  have hsq : h ^ 2 ≤ 1 := pow_le_one₀ hh.le hone
  have hcube : h ^ 3 ≤ 1 := pow_le_one₀ hh.le hone
  have hzero : ‖(0 : ℂ)‖ ≤ M * h ^ 5 := by simpa using hB
  have h₀ := norm_combination_le (a := -6) (b := 4) (c := 1) (d := 0) (m := 12) hB
    (by norm_num) hr₀B hs₁B hr₁B hzero
  have h₁ := norm_combination_le (a := -1 / 96) (b := -4 * h) (c := 2 * h) (d := -h) (m := 12) hB
    (by simp [abs_of_pos hh]; linarith) (hp 4 (by decide)) hs₀B hs₁B hr₀B
  have h₂ := norm_combination_le (a := 1 / 48) (b := h / 192) (c := -2 * h ^ 2) (d := h ^ 2 / 2)
    (m := 12) hB (by simp [abs_of_pos hh]; linarith) (hp 3 (by decide)) (hp 4 (by decide)) hs₀B hs₁B
  have h₃ := norm_combination_le (a := -1 / 16) (b := -h / 96) (c := -h ^ 2 / 768)
    (d := -h ^ 3 / 2) (m := 12) hB (by simp [abs_of_pos hh]; linarith) (hp 2 (by decide))
    (hp 3 (by decide)) (hp 4 (by decide)) hs₀B
  have hsix : 6 * ‖fourStage l f h x (u 0 x) (1 / 2) (1 / 6) (1 / 3) - u 0 (x + h)‖ ≤
      12 * (M * h ^ 5) + ‖l‖ * (12 * (M * h ^ 5)) + ‖l‖ ^ 2 * (12 * (M * h ^ 5)) +
        ‖l‖ ^ 3 * (12 * (M * h ^ 5)) := by
    have hnorm := congrArg norm hloss
    rw [norm_mul, Complex.norm_ofNat] at hnorm
    rw [hnorm, ← norm_pow, ← norm_pow]
    refine norm_add₄_le.trans (add_le_add (add_le_add (add_le_add h₀ ?_) ?_) ?_)
    · exact norm_mul_le_of_le le_rfl h₁
    · exact norm_mul_le_of_le le_rfl h₂
    · exact norm_mul_le_of_le le_rfl h₃
  linarith

end ReversalBench.OneStep
