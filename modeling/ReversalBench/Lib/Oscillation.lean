import Mathlib

/-! Damped oscillations: `exp (a x) (c cos (w x) + s sin (w x))`. The derivative of one is another
of the same damping and frequency, so differential equations between them are equations
between their coefficients. -/

namespace ReversalBench

open Real

/-- The oscillation with damping `a`, frequency `w` and coefficients `c` and `s`. -/
noncomputable def oscillation (a w c s x : ℝ) : ℝ :=
  exp (a * x) * (c * cos (w * x) + s * sin (w * x))

variable {a w c s x : ℝ}

@[simp] theorem oscillation_zero : oscillation a w c s 0 = c := by simp [oscillation]

theorem hasDerivAt_oscillation (a w c s x : ℝ) :
    HasDerivAt (oscillation a w c s)
      (oscillation a w (a * c + w * s) (a * s - w * c) x) x := by
  have hlinear : ∀ b : ℝ, HasDerivAt (fun x => b * x) b x := fun b => by
    simpa using (hasDerivAt_id x).const_mul b
  have hexp : HasDerivAt (fun x => exp (a * x)) (exp (a * x) * a) x := (hlinear a).exp
  have hcos : HasDerivAt (fun x => c * cos (w * x)) (c * (-sin (w * x) * w)) x :=
    (hlinear w).cos.const_mul c
  have hsin : HasDerivAt (fun x => s * sin (w * x)) (s * (cos (w * x) * w)) x :=
    (hlinear w).sin.const_mul s
  refine (hexp.mul (hcos.add hsin)).congr_deriv ?_
  simp only [oscillation, Pi.add_apply]
  ring

/-- A damped oscillation solves the homogeneous equation of its damping and frequency. -/
theorem oscillation_homogeneous :
    oscillation a w (a * (a * c + w * s) + w * (a * s - w * c))
        (a * (a * s - w * c) - w * (a * c + w * s)) x =
      2 * a * oscillation a w (a * c + w * s) (a * s - w * c) x -
        (a ^ 2 + w ^ 2) * oscillation a w c s x := by
  simp only [oscillation]
  ring

/-! ### All derivatives -/

/-- The coefficients of the derivative. -/
def derivCoefficients (a w : ℝ) (p : ℝ × ℝ) : ℝ × ℝ := (a * p.1 + w * p.2, a * p.2 - w * p.1)

noncomputable def oscillationDeriv (a w c s : ℝ) (k : ℕ) (x : ℝ) : ℝ :=
  let p := (derivCoefficients a w)^[k] (c, s)
  oscillation a w p.1 p.2 x

theorem hasDerivAt_oscillationDeriv (a w c s : ℝ) (k : ℕ) (x : ℝ) :
    HasDerivAt (oscillationDeriv a w c s k) (oscillationDeriv a w c s (k + 1) x) x := by
  simp only [oscillationDeriv, Function.iterate_succ_apply']
  exact hasDerivAt_oscillation a w _ _ x

theorem abs_oscillation_le (ha : a ≤ 0) (hx : 0 ≤ x) :
    |oscillation a w c s x| ≤ |c| + |s| := by
  have hexp : exp (a * x) ≤ 1 := exp_le_one_iff.mpr (mul_nonpos_of_nonpos_of_nonneg ha hx)
  have hcos : |c * cos (w * x)| ≤ |c| := by
    rw [abs_mul]
    exact mul_le_of_le_one_right (abs_nonneg c) (abs_cos_le_one _)
  have hsin : |s * sin (w * x)| ≤ |s| := by
    rw [abs_mul]
    exact mul_le_of_le_one_right (abs_nonneg s) (abs_sin_le_one _)
  rw [oscillation, abs_mul, abs_of_pos (exp_pos _)]
  calc exp (a * x) * |c * cos (w * x) + s * sin (w * x)|
      ≤ |c * cos (w * x) + s * sin (w * x)| := mul_le_of_le_one_left (abs_nonneg _) hexp
    _ ≤ |c * cos (w * x)| + |s * sin (w * x)| := abs_add_le _ _
    _ ≤ |c| + |s| := add_le_add hcos hsin

/-- Damped, each derivative is bounded from the start on. -/
theorem exists_bound_oscillationDeriv (ha : a ≤ 0) (w c s : ℝ) (k : ℕ) :
    ∃ B, ∀ x, 0 ≤ x → |oscillationDeriv a w c s k x| ≤ B :=
  ⟨_, fun _ hx => abs_oscillation_le ha hx⟩

end ReversalBench
