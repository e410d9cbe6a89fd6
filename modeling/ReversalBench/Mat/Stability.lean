import ReversalBench.Mat.Methods

/-! How the two methods of `mat.py` treat deviations. The energy of the difference of two
computed solutions changes by the same factor in each step, whatever the solutions are. -/

namespace ReversalBench.Mat

open OneStep (growth)

/-- The energy of a deviation. -/
noncomputable def energy (y z : ℝ) : ℝ := ‖mode y z‖ ^ 2

theorem energy_eq (y z : ℝ) : energy y z = z ^ 2 + 10 * y * z + 100 * y ^ 2 := by
  have hsqrt : √3 * √3 = 3 := Real.mul_self_sqrt (by norm_num)
  rw [energy, Complex.sq_norm, Complex.normSq_apply, mode_eq]
  linear_combination 25 * y ^ 2 * hsqrt

theorem energy_eq_zero_iff {y z : ℝ} : energy y z = 0 ↔ y = 0 ∧ z = 0 := by
  rw [energy_eq]
  constructor
  · intro h
    have hy : y = 0 := by nlinarith [sq_nonneg (z + 5 * y)]
    subst hy
    exact ⟨rfl, by nlinarith⟩
  · rintro ⟨rfl, rfl⟩
    ring

/-! ### The gains -/

/-- What a step of Euler makes of the energy. -/
noncomputable def eulerGain (h : ℝ) : ℝ := ‖1 + (h : ℂ) * rate‖ ^ 2

/-- What a step of Runge and Kutta makes of it. -/
noncomputable def rungeKuttaGain (h : ℝ) : ℝ := ‖growth (h * rate)‖ ^ 2

theorem eulerGain_eq (h : ℝ) : eulerGain h = 1 - 10 * h + 100 * h ^ 2 := by
  have hsqrt : √3 * √3 = 3 := Real.mul_self_sqrt (by norm_num)
  simp only [eulerGain, Complex.sq_norm, Complex.normSq_apply, Complex.add_re, Complex.add_im,
    Complex.one_re, Complex.one_im, Complex.re_ofReal_mul, Complex.im_ofReal_mul, rate_re, rate_im]
  linear_combination 25 * h ^ 2 * hsqrt

theorem rate_sq : rate ^ 2 = ⟨-50, -50 * √3⟩ := by
  have hsqrt : √3 * √3 = 3 := Real.mul_self_sqrt (by norm_num)
  rw [sq]
  apply Complex.ext
  · simp only [Complex.mul_re, rate_re, rate_im]
    linear_combination -25 * hsqrt
  · simp only [Complex.mul_im, rate_re, rate_im]
    ring

/-- The third power is real. -/
theorem rate_cube : rate ^ 3 = 1000 := by
  have hsqrt : √3 * √3 = 3 := Real.mul_self_sqrt (by norm_num)
  rw [pow_succ, rate_sq]
  apply Complex.ext
  · simp only [Complex.mul_re, rate_re, rate_im, Complex.re_ofNat]
    linear_combination 250 * hsqrt
  · simp only [Complex.mul_im, rate_re, rate_im, Complex.im_ofNat]
    ring

theorem growth_rate (h : ℝ) : growth (h * rate) = ((1 + 500 / 3 * h ^ 3 : ℝ) : ℂ) +
    (h + 125 / 3 * h ^ 4 : ℝ) * rate + (h ^ 2 / 2 : ℝ) * rate ^ 2 := by
  have hfour : rate ^ 4 = 1000 * rate := by rw [pow_succ, rate_cube]
  rw [OneStep.growth_eq, mul_pow, mul_pow, mul_pow, hfour, rate_cube]
  push_cast
  ring

theorem rungeKuttaGain_eq (h : ℝ) : rungeKuttaGain h =
    1 - 10 * h + (10 * h) ^ 2 / 2 - (10 * h) ^ 3 / 6 + (10 * h) ^ 4 / 24 +
      (10 * h) ^ 6 / 144 - (10 * h) ^ 7 / 144 + (10 * h) ^ 8 / 576 := by
  have hsqrt : √3 * √3 = 3 := Real.mul_self_sqrt (by norm_num)
  rw [rungeKuttaGain, growth_rate, rate_sq]
  simp only [Complex.sq_norm, Complex.normSq_apply, Complex.add_re, Complex.add_im,
    Complex.ofReal_re, Complex.ofReal_im, Complex.re_ofReal_mul, Complex.im_ofReal_mul, rate_re,
    rate_im]
  linear_combination (5 * h - 25 * h ^ 2 + 625 / 3 * h ^ 4) ^ 2 * hsqrt

theorem eulerGain_le_one_iff {h : ℝ} : eulerGain h ≤ 1 ↔ 0 ≤ h ∧ h ≤ 1 / 10 := by
  rw [eulerGain_eq]
  constructor
  · intro hle
    have hneg : h * (h - 1 / 10) ≤ 0 := by linarith
    rcases mul_nonpos_iff.mp hneg with ⟨h0, h1⟩ | ⟨h0, h1⟩
    · exact ⟨h0, by linarith⟩
    · exact ⟨by linarith, by linarith⟩
  · rintro ⟨h0, h1⟩
    nlinarith

theorem rungeKuttaGain_le_one {h : ℝ} (h0 : 0 ≤ h) (h1 : h ≤ 1 / 5) : rungeKuttaGain h ≤ 1 := by
  obtain ⟨t, ht⟩ : ∃ t, t = 10 * h := ⟨_, rfl⟩
  have ht0 : 0 ≤ t := by linarith
  have ht2 : t ≤ 2 := by linarith
  -- What the terms of higher order add is less than what the terms below them take away.
  have hhigh : t ^ 5 * (1 - t / 2) ^ 2 / 144 ≤ t ^ 2 * (4 - t) / 24 := by
    have hcube : t ^ 3 ≤ 8 := by
      calc t ^ 3 ≤ 2 ^ 3 := by gcongr
        _ = 8 := by norm_num
    have hsq : (1 - t / 2) ^ 2 ≤ 1 := pow_le_one₀ (by linarith) (by linarith)
    calc t ^ 5 * (1 - t / 2) ^ 2 / 144 ≤ t ^ 5 * 1 / 144 := by gcongr
      _ = t ^ 2 * t ^ 3 / 144 := by ring
      _ ≤ t ^ 2 * 8 / 144 := by gcongr
      _ ≤ t ^ 2 * (4 - t) / 24 := by nlinarith [sq_nonneg t]
  have hlinear : 0 ≤ t * (1 - t / 2) := mul_nonneg ht0 (by linarith)
  have htotal : 0 ≤ t * (t ^ 2 * (4 - t) / 24 - t ^ 5 * (1 - t / 2) ^ 2 / 144) :=
    mul_nonneg ht0 (by linarith)
  rw [rungeKuttaGain_eq, ← ht]
  linarith

/-! ### Two runs -/

/-- The energy of the difference of two runs, at an index of their arrays. -/
noncomputable def deviation (a b : Arrays ℝ) (i : ℕ) : ℝ :=
  energy ((a.entry i).y - (b.entry i).y) ((a.entry i).z - (b.entry i).z)

theorem deviation_integrate {step : Point ℝ → Point ℝ} {method : ℝ → ℂ → ℂ} {h : ℝ} {r : ℂ}
    (hstep : Represents step method h)
    (hsub : ∀ x v w, method x v - method x w = r * (v - w)) (x y z y' z' : ℝ) {i n : ℕ}
    (hi : i ≤ n) :
    deviation (integrate step ⟨x, y, z⟩ n) (integrate step ⟨x, y', z'⟩ n) i =
      (‖r‖ ^ 2) ^ i * energy (y - y') (z - z') := by
  have hfirst := (hstep.iterate ⟨x, y, z⟩ i).2
  have hsecond := (hstep.iterate ⟨x, y', z'⟩ i).2
  rw [deviation, entry_integrate _ _ hi, entry_integrate _ _ hi, energy, mode_sub, hfirst,
    hsecond, OneStep.steps_sub hsub, norm_mul, norm_pow, mul_pow, ← mode_sub, ← energy,
    pow_right_comm]

/-- In every step the energy of the difference of two runs is multiplied by the gain of the
method. For Euler it does not grow exactly up to a step of 0.1; for Runge and Kutta it does not
up to 0.2 at least. -/
theorem energy_gains (h x y z y' z' : ℝ) {i n : ℕ} (hi : i ≤ n) :
    deviation (integrate (eulerStep fOdeZPrime h) ⟨x, y, z⟩ n)
        (integrate (eulerStep fOdeZPrime h) ⟨x, y', z'⟩ n) i =
      (1 - 10 * h + 100 * h ^ 2) ^ i * energy (y - y') (z - z') ∧
    deviation (integrate (rungeKutta4Step fOdeZPrime h) ⟨x, y, z⟩ n)
        (integrate (rungeKutta4Step fOdeZPrime h) ⟨x, y', z'⟩ n) i =
      rungeKuttaGain h ^ i * energy (y - y') (z - z') ∧
    energy (y - y') (z - z') =
      (z - z') ^ 2 + 10 * (y - y') * (z - z') + 100 * (y - y') ^ 2 ∧
    (energy (y - y') (z - z') = 0 ↔ y = y' ∧ z = z') ∧
    (1 - 10 * h + 100 * h ^ 2 ≤ 1 ↔ 0 ≤ h ∧ h ≤ 1 / 10) ∧
    rungeKuttaGain h =
      1 - 10 * h + (10 * h) ^ 2 / 2 - (10 * h) ^ 3 / 6 + (10 * h) ^ 4 / 24 +
        (10 * h) ^ 6 / 144 - (10 * h) ^ 7 / 144 + (10 * h) ^ 8 / 576 ∧
    (0 ≤ h → h ≤ 1 / 5 → rungeKuttaGain h ≤ 1) := by
  rw [← eulerGain_eq, energy_eq_zero_iff, sub_eq_zero, sub_eq_zero]
  refine ⟨?_, ?_, energy_eq _ _, Iff.rfl, eulerGain_le_one_iff, rungeKuttaGain_eq h,
    rungeKuttaGain_le_one⟩
  · exact deviation_integrate (represents_eulerStep h) (OneStep.euler_sub rate drive h) _ _ _ _ _ hi
  · exact deviation_integrate (represents_rungeKutta4Step h) (OneStep.rungeKutta_sub rate drive h)
      _ _ _ _ _ hi

/-- With the largest step of the script Euler triples the energy of a deviation in each of its five
steps. -/
theorem energy_gains_fifth :
    deviation (integrate (eulerStep fOdeZPrime (1 / 5)) ⟨0, 1, 0⟩ 5)
      (integrate (eulerStep fOdeZPrime (1 / 5)) ⟨0, 0, 0⟩ 5) 5 = 3 ^ 5 * 100 := by
  rw [(energy_gains (1 / 5) 0 1 0 0 0 (le_refl 5)).1, energy_eq]
  norm_num

end ReversalBench.Mat
