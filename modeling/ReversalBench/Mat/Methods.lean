import ReversalBench.Lib.OneStep
import ReversalBench.Mat.Reference

/-! The numerical methods of `mat.py`, `euler_method` and `runge_kutta_4`, over any field. They
fill arrays, each entry from the one before. Over the real numbers the pair `y`, `z` is a
complex number for which the system is a single equation, and a step on the pair is a step of
the method for that equation. -/

namespace ReversalBench.Mat

open Real

/-- The entries of the arrays at one index. -/
structure Point (K : Type*) where
  x : K
  y : K
  z : K
  deriving DecidableEq

structure Arrays (K : Type*) where
  xArr : List K
  yArr : List K
  zArr : List K

variable {K : Type*} [Field K]

namespace Arrays

/-- `np.zeros`, for each array. -/
def zeros (n : ℕ) : Arrays K := ⟨List.replicate n 0, List.replicate n 0, List.replicate n 0⟩

def entry (a : Arrays K) (i : ℕ) : Point K := ⟨a.xArr.getD i 0, a.yArr.getD i 0, a.zArr.getD i 0⟩

def store (a : Arrays K) (i : ℕ) (p : Point K) : Arrays K :=
  ⟨a.xArr.set i p.x, a.yArr.set i p.y, a.zArr.set i p.z⟩

end Arrays

/-- The loop of both methods. -/
def integrate (step : Point K → Point K) (start : Point K) (stepsVal : ℕ) : Arrays K :=
  (List.range stepsVal).foldl (fun a i => a.store (i + 1) (step (a.entry i)))
    ((Arrays.zeros (stepsVal + 1)).store 0 start)

/-- The body of the loop of `euler_method`. -/
def eulerStep (zPrimeFunc : K → K → K → K) (hStep : K) (p : Point K) : Point K where
  y := p.y + hStep * p.z
  z := p.z + hStep * zPrimeFunc p.x p.y p.z
  x := p.x + hStep

/-- The right-hand side for `y` is a parameter that is not used. -/
def eulerMethod (_yPrimeFunc zPrimeFunc : K → K → K → K) (x0Val y0Val z0Val hStep : K)
    (stepsVal : ℕ) : List K × List K :=
  let a := integrate (eulerStep zPrimeFunc hStep) ⟨x0Val, y0Val, z0Val⟩ stepsVal
  (a.xArr, a.yArr)

/-- The body of the loop of `runge_kutta_4`. The divisors and the weights are integers. -/
def rungeKutta4Step (zPrimeFunc : K → K → K → K) (hStep : K) (p : Point K) : Point K :=
  let k1Y := hStep * p.z
  let k1Z := hStep * zPrimeFunc p.x p.y p.z
  let k2Y := hStep * (p.z + k1Z / (2 : ℕ))
  let k2Z := hStep *
    zPrimeFunc (p.x + hStep / (2 : ℕ)) (p.y + k1Y / (2 : ℕ)) (p.z + k1Z / (2 : ℕ))
  let k3Y := hStep * (p.z + k2Z / (2 : ℕ))
  let k3Z := hStep *
    zPrimeFunc (p.x + hStep / (2 : ℕ)) (p.y + k2Y / (2 : ℕ)) (p.z + k2Z / (2 : ℕ))
  let k4Y := hStep * (p.z + k3Z)
  let k4Z := hStep * zPrimeFunc (p.x + hStep) (p.y + k3Y) (p.z + k3Z)
  { y := p.y + (k1Y + (2 : ℕ) * k2Y + (2 : ℕ) * k3Y + k4Y) / (6 : ℕ)
    z := p.z + (k1Z + (2 : ℕ) * k2Z + (2 : ℕ) * k3Z + k4Z) / (6 : ℕ)
    x := p.x + hStep }

def rungeKutta4 (_yPrimeFunc zPrimeFunc : K → K → K → K) (x0Val y0Val z0Val hStep : K)
    (stepsVal : ℕ) : List K × List K :=
  let a := integrate (rungeKutta4Step zPrimeFunc hStep) ⟨x0Val, y0Val, z0Val⟩ stepsVal
  (a.xArr, a.yArr)

/-! ### The arrays -/

/-- The arrays for a list of points. -/
def Arrays.ofPoints (ps : List (Point K)) : Arrays K :=
  ⟨ps.map Point.x, ps.map Point.y, ps.map Point.z⟩

theorem Arrays.zeros_eq (n : ℕ) : (zeros n : Arrays K) = ofPoints (List.replicate n ⟨0, 0, 0⟩) := by
  simp [zeros, ofPoints]

theorem Arrays.entry_ofPoints (ps : List (Point K)) (i : ℕ) :
    (ofPoints ps).entry i = ps.getD i ⟨0, 0, 0⟩ := by
  simp only [entry, ofPoints, List.getD_eq_getElem?_getD, List.getElem?_map]
  cases ps[i]? <;> rfl

omit [Field K] in
theorem Arrays.store_ofPoints (ps : List (Point K)) (i : ℕ) (p : Point K) :
    (ofPoints ps).store i p = ofPoints (ps.set i p) := by
  simp only [store, ofPoints, List.map_set]

/-- After `m` rounds of the loop. -/
theorem loop_eq (step : Point K → Point K) (start : Point K) {m n : ℕ} (h : m ≤ n) :
    (List.range m).foldl (fun a i => a.store (i + 1) (step (a.entry i)))
        ((Arrays.zeros (n + 1)).store 0 start) =
      Arrays.ofPoints (List.iterate step start (m + 1) ++
        List.replicate (n - m) ⟨0, 0, 0⟩) := by
  induction m with
  | zero =>
    rw [Arrays.zeros_eq, Arrays.store_ofPoints, List.replicate_succ, List.set_cons_zero]
    rfl
  | succ m ih =>
    have hlength : (List.iterate step start (m + 1)).length = m + 1 := List.length_iterate ..
    have hentry : (List.iterate step start (m + 1) ++
        List.replicate (n - m) (⟨0, 0, 0⟩ : Point K)).getD m ⟨0, 0, 0⟩ = step^[m] start := by
      rw [List.getD_append _ _ _ _ (by omega), List.getD_eq_getElem _ _ (by omega),
        List.getElem_iterate]
    have hrest : n - m = n - (m + 1) + 1 := by omega
    rw [List.range_succ, List.foldl_append, ih (by omega), List.foldl_cons, List.foldl_nil,
      Arrays.entry_ofPoints, hentry, Arrays.store_ofPoints,
      List.set_append_right _ _ (by omega), hlength, Nat.sub_self, hrest, List.replicate_succ,
      List.set_cons_zero, List.iterate_add step start (m + 1) 1, List.append_assoc,
      ← Function.iterate_succ_apply' step m start]
    rfl

/-- The arrays hold the points that the steps lead to. -/
theorem integrate_eq (step : Point K → Point K) (start : Point K) (n : ℕ) :
    integrate step start n = Arrays.ofPoints (List.iterate step start (n + 1)) := by
  have hloop := loop_eq step start (le_refl n)
  rw [Nat.sub_self, List.replicate_zero, List.append_nil] at hloop
  exact hloop

/-- What an entry of the arrays is. -/
theorem entry_integrate (step : Point K → Point K) (start : Point K) {i n : ℕ} (h : i ≤ n) :
    (integrate step start n).entry i = step^[i] start := by
  rw [integrate_eq, Arrays.entry_ofPoints, List.getD_eq_getElem?_getD,
    List.getElem?_iterate step start (n + 1) i (by omega), Option.getD_some]

/-! ### The system as one equation -/

/-- The rate of the homogeneous equation: its damping and its frequency. -/
noncomputable def rate : ℂ := ⟨-(5 : ℕ), (5 : ℕ) * √(3 : ℕ)⟩

/-- The pair `y`, `z` as a complex number. -/
noncomputable def mode (y z : ℝ) : ℂ := z - star rate * y

/-- The right-hand side at rest. -/
noncomputable def drive (x : ℝ) : ℂ := (fOdeZPrime x 0 0 : ℝ)

@[simp] theorem rate_re : rate.re = -5 := by simp [rate]

@[simp] theorem rate_im : rate.im = 5 * √3 := by simp [rate]

theorem mode_eq (y z : ℝ) : mode y z = ⟨z + 5 * y, 5 * √3 * y⟩ := by
  apply Complex.ext <;> simp [mode]

theorem mode_add (y z y' z' : ℝ) : mode (y + y') (z + z') = mode y z + mode y' z' := by
  simp only [mode]
  push_cast
  ring

theorem mode_sub (y z y' z' : ℝ) : mode (y - y') (z - z') = mode y z - mode y' z' := by
  simp only [mode]
  push_cast
  ring

theorem mode_mul (a y z : ℝ) : mode (a * y) (a * z) = a * mode y z := by
  simp only [mode]
  push_cast
  ring

theorem mode_div (a y z : ℝ) : mode (y / a) (z / a) = mode y z / a := by
  simp only [mode]
  push_cast
  ring

/-- The two right-hand sides are one. -/
theorem mode_rhs (x y z : ℝ) : mode z (fOdeZPrime x y z) = rate * mode y z + drive x := by
  have hsqrt : √3 * √3 = 3 := mul_self_sqrt (by norm_num)
  apply Complex.ext
  · simp only [mode_eq, drive, fOdeZPrime, rate_re, rate_im, Complex.add_re, Complex.mul_re,
      Complex.ofReal_re]
    linear_combination 25 * y * hsqrt
  · simp only [mode_eq, drive, rate_re, rate_im, Complex.add_im, Complex.mul_im,
      Complex.ofReal_im]
    ring

/-- A step on the points is a step of a method for the equation. -/
structure Represents (step : Point ℝ → Point ℝ) (method : ℝ → ℂ → ℂ) (h : ℝ) : Prop where
  x : ∀ p, (step p).x = p.x + h
  mode : ∀ p, Mat.mode (step p).y (step p).z = method p.x (Mat.mode p.y p.z)

theorem represents_eulerStep (h : ℝ) :
    Represents (eulerStep fOdeZPrime h) (OneStep.euler rate drive h) h where
  x _ := rfl
  mode p := by
    rw [eulerStep, mode_add, mode_mul, mode_rhs, OneStep.euler]

theorem represents_rungeKutta4Step (h : ℝ) :
    Represents (rungeKutta4Step fOdeZPrime h) (fun x w =>
      OneStep.fourStage rate drive h x w (1 / 2) (1 / 6) (1 / 3)) h where
  x _ := rfl
  mode p := by
    have hhalf : 1 / 2 * h = h / 2 := one_div_mul_eq_div 2 h
    -- The four increments are those of the equation.
    simp only [rungeKutta4Step, Nat.cast_ofNat, mode_add, mode_mul, mode_div, mode_rhs,
      OneStep.fourStage, OneStep.stage, hhalf, zero_mul, add_zero, one_mul]
    push_cast
    ring

theorem Represents.iterate {step : Point ℝ → Point ℝ} {method : ℝ → ℂ → ℂ} {h : ℝ}
    (hstep : Represents step method h) (start : Point ℝ) (n : ℕ) :
    (step^[n] start).x = start.x + n * h ∧
      Mat.mode (step^[n] start).y (step^[n] start).z =
        OneStep.steps method h start.x (Mat.mode start.y start.z) n := by
  induction n with
  | zero => simp [OneStep.steps]
  | succ n ih =>
    obtain ⟨hx, hmode⟩ := ih
    rw [Function.iterate_succ_apply']
    constructor
    · rw [hstep.x, hx]
      push_cast
      ring
    · rw [hstep.mode, hx, hmode, OneStep.steps]

end ReversalBench.Mat
