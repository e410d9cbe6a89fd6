import ReversalBench.Lib.Oscillation

/-! The reference solution of `mat.py`, over the real numbers: a closed form, and the
system `y' = z`, `z' = (10 sin 2x - 2z - 20y) / 0.2` that the numerical methods
integrate from `y(0) = y'(0) = 0`. -/

namespace ReversalBench.Mat

open Real

/-- `exact_solution`. -/
noncomputable def exactSolution (x : ℝ) : ℝ :=
  let term1 := exp (-5 * x) *
    (10 / 13 * cos (5 * √3 * x) + 8 / (13 * √3) * sin (5 * √3 * x))
  let term2 := 5 / 13 * sin (2 * x) - 10 / 13 * cos (2 * x)
  term1 + term2

/-- `f_ode_y_prime`. -/
def fOdeYPrime (_x _y z : ℝ) : ℝ := z

/-- `f_ode_z_prime`. -/
noncomputable def fOdeZPrime (x y z : ℝ) : ℝ := (10 * sin (2 * x) - 2 * z - 20 * y) / 0.2

def x0 : ℝ := 0

def y0 : ℝ := 0

def z0 : ℝ := 0

/-- At `x`, the pair `y`, `z` moves as the two right-hand sides say. -/
def SolvesAt (y z : ℝ → ℝ) (x : ℝ) : Prop :=
  HasDerivAt y (fOdeYPrime x (y x) (z x)) x ∧ HasDerivAt z (fOdeZPrime x (y x) (z x)) x

/-- A solution of the homogeneous equation, which has damping 5 and frequency `5√3`, and an
oscillation at the frequency of the driving term. -/
noncomputable def response (c s b a x : ℝ) : ℝ :=
  oscillation (-5) (5 * √3) c s x + oscillation 0 2 b a x

/-- The derivative of `response`. -/
noncomputable def responseRate (c s b a x : ℝ) : ℝ :=
  oscillation (-5) (5 * √3) (-5 * c + 5 * √3 * s) (-5 * s - 5 * √3 * c) x +
    oscillation 0 2 (0 * b + 2 * a) (0 * a - 2 * b) x

variable (c s b a x : ℝ)

theorem hasDerivAt_response : HasDerivAt (response c s b a) (responseRate c s b a x) x :=
  (hasDerivAt_oscillation _ _ c s x).add (hasDerivAt_oscillation _ _ b a x)

theorem deriv_response : deriv (response c s b a) = responseRate c s b a :=
  funext fun x => (hasDerivAt_response c s b a x).deriv

/-- The damped part solves the homogeneous equation whatever its coefficients are; what is left
over comes from the driven part. -/
theorem hasDerivAt_responseRate :
    HasDerivAt (responseRate c s b a)
      (fOdeZPrime x (response c s b a x) (responseRate c s b a x) +
        ((96 * a - 20 * b - 50) * sin (2 * x) + (96 * b + 20 * a) * cos (2 * x))) x := by
  have hsqrt : (-5 : ℝ) ^ 2 + (5 * √3) ^ 2 = 100 := by
    rw [mul_pow, sq_sqrt (by norm_num)]
    norm_num
  have hdamped := oscillation_homogeneous (a := -5) (w := 5 * √3) (c := c) (s := s) (x := x)
  rw [hsqrt] at hdamped
  refine ((hasDerivAt_oscillation _ _ _ _ x).add (hasDerivAt_oscillation _ _ _ _ x)).congr_deriv ?_
  rw [hdamped, fOdeZPrime, response, responseRate]
  simp only [oscillation, zero_mul, exp_zero, one_mul]
  ring

/-- The response solves the system where the two coefficients of its residue cancel. -/
theorem solvesAt_response :
    SolvesAt (response c s b a) (responseRate c s b a) x ↔
      (96 * a - 20 * b - 50) * sin (2 * x) + (96 * b + 20 * a) * cos (2 * x) = 0 := by
  have hz := hasDerivAt_responseRate c s b a x
  constructor
  · rintro ⟨-, hsolves⟩
    exact left_eq_add.mp (hsolves.unique hz)
  · intro hresidue
    rw [hresidue, add_zero] at hz
    exact ⟨hasDerivAt_response c s b a x, hz⟩

theorem exactSolution_eq :
    exactSolution = response (10 / 13) (8 / (13 * √3)) (-(10 / 13)) (5 / 13) := by
  funext x
  simp only [exactSolution, response, oscillation, zero_mul, exp_zero, one_mul]
  ring

theorem deriv_exactSolution :
    deriv exactSolution = responseRate (10 / 13) (8 / (13 * √3)) (-(10 / 13)) (5 / 13) := by
  rw [exactSolution_eq, deriv_response]

theorem solvesAt_exactSolution :
    SolvesAt exactSolution (deriv exactSolution) x ↔ 3 * sin (2 * x) = 86 * cos (2 * x) := by
  rw [deriv_exactSolution, exactSolution_eq, solvesAt_response]
  constructor <;> intro h <;> linarith

theorem exactSolution_zero : exactSolution 0 = 0 := by
  rw [exactSolution_eq, response, oscillation_zero, oscillation_zero]
  ring

theorem deriv_exactSolution_zero : deriv exactSolution 0 = 0 := by
  have hsqrt : √3 ≠ 0 := by positivity
  rw [deriv_exactSolution, responseRate, oscillation_zero, oscillation_zero]
  field_simp
  norm_num

/-- The closed form has the initial values, and solves the system exactly where the residue of
its driven part vanishes. -/
theorem exactSolution_solves_iff :
    (SolvesAt exactSolution (deriv exactSolution) x ↔ 3 * sin (2 * x) = 86 * cos (2 * x)) ∧
      exactSolution x0 = y0 ∧ deriv exactSolution x0 = z0 :=
  ⟨solvesAt_exactSolution x, exactSolution_zero, deriv_exactSolution_zero⟩

/-- At the start already the second derivative is another one. -/
theorem exactSolution_not_solves : ¬ SolvesAt exactSolution (deriv exactSolution) x0 := by
  rw [solvesAt_exactSolution, x0]
  simp

end ReversalBench.Mat
