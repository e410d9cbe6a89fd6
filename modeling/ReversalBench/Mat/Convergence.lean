import ReversalBench.Mat.Stability

/-! The initial value problem of `mat.py` has one solution, and what the two methods compute
converges to it, with orders 1 and 4. -/

namespace ReversalBench.Mat

open Real
open OneStep (Smooth growth)

/-- The pair solves the system from the initial values on. -/
structure IsSolution (y z : ℝ → ℝ) : Prop where
  solves : ∀ x, SolvesAt y z x
  y_start : y x0 = y0
  z_start : z x0 = z0

theorem isSolution_response : IsSolution
    (response (125 / 1202) (-115 / (1202 * √3)) (-125 / 1202) (300 / 601))
    (responseRate (125 / 1202) (-115 / (1202 * √3)) (-125 / 1202) (300 / 601)) where
  solves x := by
    rw [solvesAt_response]
    ring
  y_start := by
    rw [response, x0, oscillation_zero, oscillation_zero, y0]
    ring
  z_start := by
    have hsqrt : √3 ≠ 0 := by positivity
    rw [responseRate, x0, oscillation_zero, oscillation_zero, z0]
    field_simp
    ring

theorem hasDerivAt_mode {y z : ℝ → ℝ} {y' z' x : ℝ} (hy : HasDerivAt y y' x)
    (hz : HasDerivAt z z' x) : HasDerivAt (fun x => mode (y x) (z x)) (mode y' z') x :=
  hz.ofReal_comp.sub (hy.ofReal_comp.const_mul (star rate))

section Unique

variable {y z y' z' : ℝ → ℝ}

/-- The pair of a solution solves the equation. -/
theorem IsSolution.hasDerivAt (h : IsSolution y z) (x : ℝ) :
    HasDerivAt (fun x => mode (y x) (z x)) (rate * mode (y x) (z x) + drive x) x := by
  obtain ⟨hy, hz⟩ := h.solves x
  rw [← mode_rhs]
  exact hasDerivAt_mode hy hz

theorem mode_eq_zero_iff {y z : ℝ} : mode y z = 0 ↔ y = 0 ∧ z = 0 := by
  rw [← norm_eq_zero, ← sq_eq_zero_iff, ← energy, energy_eq_zero_iff]

/-- There is no other solution: but for its growth, the difference of two does not change. -/
theorem IsSolution.unique (h : IsSolution y z) (h' : IsSolution y' z') : y = y' ∧ z = z' := by
  have hderiv : ∀ x, HasDerivAt (fun x : ℝ =>
      Complex.exp (-rate * x) * (mode (y x) (z x) - mode (y' x) (z' x))) 0 x := by
    intro x
    have hlinear : HasDerivAt (fun x : ℝ => -rate * x) (-rate) x := by
      simpa using (hasDerivAt_id x).ofReal_comp.const_mul (-rate)
    refine (hlinear.cexp.mul ((h.hasDerivAt x).sub (h'.hasDerivAt x))).congr_deriv ?_
    simp only [Pi.sub_apply]
    ring
  have hstart : mode (y 0) (z 0) = mode (y' 0) (z' 0) := by
    rw [← x0, h.y_start, h.z_start, h'.y_start, h'.z_start]
  have hzero : ∀ x, y x - y' x = 0 ∧ z x - z' x = 0 := by
    intro x
    have hconst := is_const_of_deriv_eq_zero (fun x => (hderiv x).differentiableAt)
      (fun x => (hderiv x).deriv) x 0
    rw [hstart, sub_self, mul_zero] at hconst
    rw [← mode_eq_zero_iff, mode_sub]
    exact (mul_eq_zero.mp hconst).resolve_left (Complex.exp_ne_zero _)
  constructor
  · funext x
    exact sub_eq_zero.mp (hzero x).1
  · funext x
    exact sub_eq_zero.mp (hzero x).2

end Unique

/-! ### The derivatives of the solution -/

/-- The solution with all its derivatives, each of them bounded. -/
structure IsPath (s : ℕ → ℝ → ℝ) : Prop where
  hasDerivAt : ∀ k x, HasDerivAt (s k) (s (k + 1) x) x
  bound : ∀ k, ∃ B, ∀ x, 0 ≤ x → |s k x| ≤ B
  isSolution : IsSolution (s 0) (s 1)

theorem exists_isPath : ∃ s, IsPath s := by
  refine ⟨fun k x => oscillationDeriv (-5) (5 * √3) (125 / 1202) (-115 / (1202 * √3)) k x +
    oscillationDeriv 0 2 (-125 / 1202) (300 / 601) k x, ?_, ?_, isSolution_response⟩
  · intro k x
    exact (hasDerivAt_oscillationDeriv ..).add (hasDerivAt_oscillationDeriv ..)
  · intro k
    obtain ⟨B, hB⟩ := exists_bound_oscillationDeriv (a := -5) (by norm_num) (5 * √3) (125 / 1202)
      (-115 / (1202 * √3)) k
    obtain ⟨B', hB'⟩ := exists_bound_oscillationDeriv le_rfl 2 (-125 / 1202) (300 / 601) k
    exact ⟨B + B', fun x hx => (abs_add_le _ _).trans (add_le_add (hB x hx) (hB' x hx))⟩

theorem norm_mode_le (y z : ℝ) : ‖mode y z‖ ≤ |z| + ‖rate‖ * |y| := by
  refine (norm_sub_le _ _).trans_eq ?_
  rw [norm_mul, norm_star, Complex.norm_real, Complex.norm_real, norm_eq_abs, norm_eq_abs]

theorem abs_le_norm_mode (y z : ℝ) : |y| ≤ ‖mode y z‖ := by
  apply abs_le_of_sq_le_sq _ (norm_nonneg _)
  rw [← energy, energy_eq]
  nlinarith [sq_nonneg (z + 5 * y)]

/-- The pair with its derivatives. -/
noncomputable def path (s : ℕ → ℝ → ℝ) (k : ℕ) (x : ℝ) : ℂ := mode (s k x) (s (k + 1) x)

variable {s : ℕ → ℝ → ℝ}

theorem IsPath.path_one (h : IsPath s) (x : ℝ) : path s 1 x = rate * path s 0 x + drive x :=
  (hasDerivAt_mode (h.hasDerivAt 0 x) (h.hasDerivAt 1 x)).unique (h.isSolution.hasDerivAt x)

theorem IsPath.path_start (h : IsPath s) : path s 0 0 = mode y0 z0 := by
  rw [path, ← x0, h.isSolution.y_start, h.isSolution.z_start]

theorem IsPath.smooth (h : IsPath s) : ∃ M, Smooth (path s) M := by
  choose B hB using h.bound
  have hB0 : ∀ k, 0 ≤ B k := fun k => (abs_nonneg _).trans (hB k 0 le_rfl)
  have hle : ∀ k ≤ 6, B k ≤ ∑ j ∈ Finset.range 7, B j := fun k hk =>
    Finset.single_le_sum (fun j _ => hB0 j) (Finset.mem_range.mpr (by omega))
  refine ⟨(1 + ‖rate‖) * ∑ j ∈ Finset.range 7, B j, ?_, fun k hk x hx => ?_⟩
  · exact fun k x => hasDerivAt_mode (h.hasDerivAt k x) (h.hasDerivAt (k + 1) x)
  · have hy := (hB k x hx).trans (hle k (by omega))
    have hz := (hB (k + 1) x hx).trans (hle (k + 1) (by omega))
    have hrate := mul_le_mul_of_nonneg_left hy (norm_nonneg rate)
    refine (norm_mode_le _ _).trans ?_
    linarith

theorem norm_le_one {w : ℂ} (h : ‖w‖ ^ 2 ≤ 1) : ‖w‖ ≤ 1 := (sq_le_one_iff₀ (norm_nonneg w)).mp h

/-! ### Convergence -/

/-- Each step loses no more than `loss`, and does not let errors grow. -/
theorem IsPath.error_le (hs : IsPath s) {step : Point ℝ → Point ℝ} {method : ℝ → ℂ → ℂ}
    {h loss : ℝ} {r : ℂ} (hstep : Represents step method h)
    (hsub : ∀ x v w, method x v - method x w = r * (v - w)) (hr : ‖r‖ ^ 2 ≤ 1) (hh : 0 < h)
    (hloss : ∀ x, 0 ≤ x → ‖method x (path s 0 x) - path s 0 (x + h)‖ ≤ loss) {i n : ℕ}
    (hi : i ≤ n) : ((integrate step ⟨x0, y0, z0⟩ n).entry i).x = i * h ∧
      |((integrate step ⟨x0, y0, z0⟩ n).entry i).y - s 0 (i * h)| ≤ i * loss := by
  obtain ⟨hx, hmode⟩ := hstep.iterate ⟨x0, y0, z0⟩ i
  rw [entry_integrate _ _ hi]
  constructor
  · rw [hx, x0, zero_add]
  · have hnonexpansive : ∀ x v w, ‖method x v - method x w‖ ≤ ‖v - w‖ := by
      intro x v w
      rw [hsub, norm_mul]
      exact mul_le_of_le_one_left (norm_nonneg _) (norm_le_one hr)
    have hsteps := OneStep.norm_steps_sub_le hnonexpansive (u := path s 0) (x := 0)
      (fun n => hloss _ (by positivity)) i
    rw [zero_add, hs.path_start] at hsteps
    refine (abs_le_norm_mode _ (((step^[i] ⟨x0, y0, z0⟩).z) - s 1 (i * h))).trans ?_
    rw [mode_sub, hmode]
    exact hsteps

/-- What the script computes with `n` steps of length `h`. -/
noncomputable def eulerRun (h : ℝ) (n : ℕ) : List ℝ × List ℝ :=
  eulerMethod fOdeYPrime fOdeZPrime x0 y0 z0 h n

noncomputable def rungeKuttaRun (h : ℝ) (n : ℕ) : List ℝ × List ℝ :=
  rungeKutta4 fOdeYPrime fOdeZPrime x0 y0 z0 h n

/-- For steps up to `limit` the error is of the given order, and grows no more than linearly. -/
def ConvergesTo (y : ℝ → ℝ) (run : ℝ → ℕ → List ℝ × List ℝ) (limit : ℝ) (order : ℕ) : Prop :=
  ∃ C : ℝ, 0 ≤ C ∧ ∀ (h : ℝ) (n i : ℕ), 0 < h → h ≤ limit → i ≤ n →
    (run h n).1.getD i 0 = i * h ∧
      |(run h n).2.getD i 0 - y (i * h)| ≤ C * (i * h) * h ^ order

theorem IsPath.eulerRun (hs : IsPath s) : ConvergesTo (s 0) eulerRun (1 / 10) 1 := by
  obtain ⟨M, hM⟩ := hs.smooth
  refine ⟨M, (norm_nonneg _).trans (hM.bound 0 (by decide) 0 le_rfl), fun h n i hh hle hi => ?_⟩
  have hgain := eulerGain_le_one_iff.mpr ⟨hh.le, hle⟩
  have herror := hs.error_le (represents_eulerStep h) (OneStep.euler_sub rate drive h) hgain hh
    (fun x hx => hM.euler hs.path_one hx hh) hi
  refine ⟨herror.1, herror.2.trans_eq ?_⟩
  ring

theorem IsPath.rungeKuttaRun (hs : IsPath s) : ConvergesTo (s 0) rungeKuttaRun (1 / 5) 4 := by
  obtain ⟨M, hM⟩ := hs.smooth
  have hM0 : 0 ≤ M := (norm_nonneg _).trans (hM.bound 0 (by decide) 0 le_rfl)
  refine ⟨2 * (1 + ‖rate‖ + ‖rate‖ ^ 2 + ‖rate‖ ^ 3) * M, by positivity, fun h n i hh hle hi => ?_⟩
  have hgain := rungeKuttaGain_le_one hh.le hle
  have herror := hs.error_le (represents_rungeKutta4Step h) (OneStep.rungeKutta_sub rate drive h)
    hgain hh (fun x hx => hM.rungeKutta hs.path_one hx hh (by linarith)) hi
  refine ⟨herror.1, herror.2.trans_eq ?_⟩
  ring

variable {y z : ℝ → ℝ}

theorem IsSolution.converge (h : IsSolution y z) :
    ConvergesTo y eulerRun (1 / 10) 1 ∧ ConvergesTo y rungeKuttaRun (1 / 5) 4 := by
  obtain ⟨s, hs⟩ := exists_isPath
  rw [(h.unique hs.isSolution).1]
  exact ⟨hs.eulerRun, hs.rungeKuttaRun⟩

/-- The entries computed converge to the solution, of which there is one: for Euler with order 1
where the step is no longer than 0.1, for Runge and Kutta with order 4 where it is no longer
than 0.2. -/
theorem methods_converge (h : IsSolution y z) :
    ConvergesTo y eulerRun (1 / 10) 1 ∧ ConvergesTo y rungeKuttaRun (1 / 5) 4 ∧
      ∀ y' z', IsSolution y' z' → y' = y ∧ z' = z :=
  ⟨h.converge.1, h.converge.2, fun _ _ h' => h'.unique h⟩

theorem methods_converge_response :
    ConvergesTo (response (125 / 1202) (-115 / (1202 * √3)) (-125 / 1202) (300 / 601)) rungeKuttaRun
      (1 / 5) 4 :=
  (methods_converge isSolution_response).2.1

end ReversalBench.Mat
