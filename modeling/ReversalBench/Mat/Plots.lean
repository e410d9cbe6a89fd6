import ReversalBench.Lib.Sampling
import ReversalBench.Mat.Convergence

/-! The errors that `mat.py` plots and prints. They compare what the methods compute with the closed
form, which is not the solution; so they tend to the distance of the closed form from the
solution, and not to 0. -/

namespace ReversalBench.Mat

open Real Filter Topology

def tFinal : ℝ := 1

/-- The absolute errors that are plotted. -/
noncomputable def absoluteError (run : List ℝ × List ℝ) : List ℝ :=
  List.zipWith (fun x y => |exactSolution x - y|) run.1 run.2

/-- The error that is printed. -/
noncomputable def rmse (run : List ℝ × List ℝ) : ℝ :=
  let squares := List.zipWith (fun x y => (exactSolution x - y) ^ 2) run.1 run.2
  √(squares.sum / squares.length)

/-! ### The closed form is another function -/

theorem continuous_exactSolution : Continuous exactSolution := by
  rw [exactSolution_eq, continuous_iff_continuousAt]
  exact fun x => (hasDerivAt_response _ _ _ _ x).continuousAt

variable {y z : ℝ → ℝ}

theorem IsSolution.continuous (h : IsSolution y z) : Continuous y :=
  continuous_iff_continuousAt.mpr fun x => (h.solves x).1.continuousAt

/-- If it were the solution, it would solve the system at `π / 4`. -/
theorem exists_ne (h : IsSolution y z) : ∃ x ∈ Set.Icc (0 : ℝ) 1, exactSolution x ≠ y x := by
  by_contra hall
  push Not at hall
  have hpi : π / 4 ∈ Set.Ioo (0 : ℝ) 1 := ⟨by positivity, by linarith [pi_lt_four]⟩
  have hnear : ∀ x ∈ Set.Ioo (0 : ℝ) 1, exactSolution =ᶠ[𝓝 x] y := by
    intro x hx
    filter_upwards [Ioo_mem_nhds hx.1 hx.2] with t ht
    exact hall t (Set.Ioo_subset_Icc_self ht)
  have hderiv : ∀ x ∈ Set.Ioo (0 : ℝ) 1, HasDerivAt exactSolution (z x) x := fun x hx =>
    (h.solves x).1.congr_of_eventuallyEq (hnear x hx)
  have hrate : deriv exactSolution =ᶠ[𝓝 (π / 4)] z := by
    filter_upwards [Ioo_mem_nhds hpi.1 hpi.2] with t ht
    exact (hderiv t ht).deriv
  have hsolves : SolvesAt exactSolution (deriv exactSolution) (π / 4) := by
    rw [SolvesAt, hrate.eq_of_nhds, (hnear _ hpi).eq_of_nhds]
    exact ⟨hderiv _ hpi, (h.solves _).2.congr_of_eventuallyEq hrate⟩
  have hangle : 2 * (π / 4) = π / 2 := by ring
  rw [solvesAt_exactSolution, hangle, sin_pi_div_two, cos_pi_div_two] at hsolves
  norm_num at hsolves

/-- How far the closed form is from a function between 0 and 1, in the mean. -/
noncomputable def distance (y : ℝ → ℝ) : ℝ := √(∫ x in (0 : ℝ)..1, (exactSolution x - y x) ^ 2)

theorem distance_pos (h : IsSolution y z) : 0 < distance y := by
  obtain ⟨x, hx, hne⟩ := exists_ne h
  apply sqrt_pos.mpr
  refine intervalIntegral.integral_pos one_pos ?_ (fun _ _ => sq_nonneg _) ⟨x, hx, ?_⟩
  · exact ((continuous_exactSolution.sub h.continuous).pow 2).continuousOn
  · exact sq_pos_of_ne_zero (sub_ne_zero.mpr hne)

/-! ### The errors -/

theorem zipWith_eq {F : ℝ → ℝ → ℝ} {xs ys : List ℝ} {n : ℕ} (hx : xs.length = n)
    (hy : ys.length = n) :
    List.zipWith F xs ys = (List.range n).map fun i => F (xs.getD i 0) (ys.getD i 0) := by
  apply List.ext_getElem
  · simp [hx, hy]
  · intro i hi _
    rw [List.length_zipWith, hx, hy, min_self] at hi
    simp [List.getD_eq_getElem?_getD, hx, hy, hi]

/-- The arrays have an entry for the start and one for each step. -/
def Fills (run : ℝ → ℕ → List ℝ × List ℝ) : Prop :=
  ∀ h n, (run h n).1.length = n + 1 ∧ (run h n).2.length = n + 1

theorem length_integrate (step : Point ℝ → Point ℝ) (start : Point ℝ) (n : ℕ) :
    (integrate step start n).xArr.length = n + 1 ∧
      (integrate step start n).yArr.length = n + 1 := by
  simp [integrate_eq, Arrays.ofPoints]

theorem eulerRun_fills : Fills eulerRun := fun _ _ => length_integrate ..

theorem rungeKuttaRun_fills : Fills rungeKuttaRun := fun _ _ => length_integrate ..

variable {run : ℝ → ℕ → List ℝ × List ℝ} {limit : ℝ} {order : ℕ}

/-- With `n` steps up to the end. -/
theorem exists_entry_le (hrun : ConvergesTo y run limit order) :
    ∃ C : ℝ, ∀ n : ℕ, 0 < n → tFinal / n ≤ limit → ∀ i ≤ n,
      (run (tFinal / n) n).1.getD i 0 = i / n ∧
        |(run (tFinal / n) n).2.getD i 0 - y (i / n)| ≤ C / n ^ order := by
  obtain ⟨C, hC, hrun⟩ := hrun
  refine ⟨C, fun n hn hlimit i hi => ?_⟩
  have hn0 : (0 : ℝ) < n := Nat.cast_pos.mpr hn
  have hx : (i : ℝ) * (tFinal / n) = i / n := by rw [tFinal, mul_one_div]
  have hle : (i : ℝ) / n ≤ 1 := (div_le_one hn0).mpr (Nat.cast_le.mpr hi)
  have hentry := hrun (tFinal / n) n i (div_pos one_pos hn0) hlimit hi
  rw [hx] at hentry
  refine ⟨hentry.1, hentry.2.trans ?_⟩
  rw [tFinal, one_div, inv_pow, ← div_eq_mul_inv]
  gcongr
  exact mul_le_of_le_one_right hC hle

/-- What is plotted is near the distance of the closed form from the solution at that point. -/
theorem exists_plotted_le (hrun : ConvergesTo y run limit order) (hfills : Fills run) :
    ∃ C : ℝ, ∀ n i : ℕ, 0 < n → tFinal / n ≤ limit → i ≤ n →
      abs ((absoluteError (run (tFinal / n) n)).getD i 0 -
        |exactSolution (i / n) - y (i / n)|) ≤ C / n ^ order := by
  obtain ⟨C, hC⟩ := exists_entry_le hrun
  refine ⟨C, fun n i hn hlimit hi => ?_⟩
  obtain ⟨hx, hy⟩ := hC n hn hlimit i hi
  obtain ⟨hlength₁, hlength₂⟩ := hfills (tFinal / n) n
  have hentry : (absoluteError (run (tFinal / n) n)).getD i 0 =
      |exactSolution (i / n) - (run (tFinal / n) n).2.getD i 0| := by
    rw [absoluteError, zipWith_eq hlength₁ hlength₂, List.getD_eq_getElem?_getD, List.getElem?_map,
      List.getElem?_range (by omega), Option.map_some, Option.getD_some, hx]
  rw [hentry]
  refine (abs_abs_sub_abs_le _ _).trans (le_of_eq_of_le ?_ hy)
  rw [sub_sub_sub_cancel_left, abs_sub_comm]

theorem rmse_eq (hfills : Fills run) (h : ℝ) (n : ℕ) :
    rmse (run h n) = √((∑ i ∈ Finset.range (n + 1),
      (exactSolution ((run h n).1.getD i 0) - (run h n).2.getD i 0) ^ 2) / (n + 1 : ℕ)) := by
  obtain ⟨hlength₁, hlength₂⟩ := hfills h n
  simp only [rmse, zipWith_eq hlength₁ hlength₂, List.length_map, List.length_range]
  rfl

theorem abs_sq_sub_sq_le {e v w c D : ℝ} (hv : |v - w| ≤ c) (hw : |e - w| ≤ D) :
    |(e - v) ^ 2 - (e - w) ^ 2| ≤ c * (2 * D + c) := by
  have hsplit : (e - v) ^ 2 - (e - w) ^ 2 = (v - w) * ((v - w) - 2 * (e - w)) := by ring
  have hsecond : |(v - w) - 2 * (e - w)| ≤ 2 * D + c := by
    refine (abs_sub _ _).trans ?_
    rw [abs_mul, abs_two]
    linarith
  rw [hsplit, abs_mul]
  exact mul_le_mul hv hsecond (abs_nonneg _) ((abs_nonneg _).trans hv)

/-- What is printed tends to the distance. -/
theorem tendsto_rmse (h : IsSolution y z) (hfills : Fills run)
    (hrun : ConvergesTo y run limit order) (hlimit : 0 < limit) (horder : order ≠ 0) :
    Tendsto (fun n : ℕ => rmse (run (tFinal / n) n)) atTop (𝓝 (distance y)) := by
  obtain ⟨C, hC⟩ := exists_entry_le hrun
  have hcont : Continuous fun x => exactSolution x - y x :=
    continuous_exactSolution.sub h.continuous
  obtain ⟨D, hD⟩ := isCompact_Icc.exists_bound_of_continuousOn
    (hcont.continuousOn (s := Set.Icc (0 : ℝ) 1))
  have hnull : Tendsto (fun n : ℕ => C / (n : ℝ) ^ order) atTop (𝓝 0) :=
    tendsto_const_nhds.div_atTop
      ((tendsto_pow_atTop horder).comp tendsto_natCast_atTop_atTop)
  have herr : Tendsto (fun n : ℕ => C / (n : ℝ) ^ order * (2 * D + C / (n : ℝ) ^ order)) atTop
      (𝓝 0) := by
    simpa using hnull.mul (tendsto_const_nhds.add hnull)
  have hmean := Sampling.tendsto_mean_of_le (hcont.pow 2) (v := fun n i =>
    (exactSolution ((run (tFinal / n) n).1.getD i 0) - (run (tFinal / n) n).2.getD i 0) ^ 2) ?_ herr
  · simp only [rmse_eq hfills, distance]
    exact (continuous_sqrt.tendsto _).comp hmean
  · have hsmall : ∀ᶠ n : ℕ in atTop, tFinal / (n : ℝ) ≤ limit :=
      (tendsto_const_div_atTop_nhds_zero_nat tFinal).eventually_le_const hlimit
    filter_upwards [eventually_gt_atTop 0, hsmall] with n hn hstep i hi
    obtain ⟨hx, hy⟩ := hC n hn hstep i hi
    have hn0 : (0 : ℝ) < n := Nat.cast_pos.mpr hn
    have hbound := hD (i / n) ⟨by positivity, (div_le_one hn0).mpr (Nat.cast_le.mpr hi)⟩
    rw [norm_eq_abs] at hbound
    rw [hx]
    exact abs_sq_sub_sq_le hy hbound

/-- As the steps get shorter, each error that is plotted tends to the distance of the closed form
from the solution at its point, and the error that is printed tends to the distance in the
mean, which is not 0: for both methods, though both converge to the solution. -/
theorem errors_tend (h : IsSolution y z) :
    0 < distance y ∧
    (∃ C : ℝ, ∀ n i : ℕ, 10 ≤ n → i ≤ n →
      abs ((absoluteError (eulerRun (tFinal / n) n)).getD i 0 -
        |exactSolution (i / n) - y (i / n)|) ≤ C / n) ∧
    (∃ C : ℝ, ∀ n i : ℕ, 5 ≤ n → i ≤ n →
      abs ((absoluteError (rungeKuttaRun (tFinal / n) n)).getD i 0 -
        |exactSolution (i / n) - y (i / n)|) ≤ C / n ^ 4) ∧
    Tendsto (fun n : ℕ => rmse (eulerRun (tFinal / n) n)) atTop (𝓝 (distance y)) ∧
    Tendsto (fun n : ℕ => rmse (rungeKuttaRun (tFinal / n) n)) atTop (𝓝 (distance y)) := by
  obtain ⟨heuler, hrungeKutta⟩ := h.converge
  have hstep : ∀ {m n : ℕ}, 0 < m → m ≤ n → tFinal / (n : ℝ) ≤ 1 / m := fun hm hn =>
    one_div_le_one_div_of_le (Nat.cast_pos.mpr hm) (Nat.cast_le.mpr hn)
  refine ⟨distance_pos h, ?_, ?_, ?_, ?_⟩
  · obtain ⟨C, hC⟩ := exists_plotted_le heuler eulerRun_fills
    refine ⟨C, fun n i hn hi => ?_⟩
    have hplotted := hC n i (by omega) (hstep (by decide : 0 < 10) hn) hi
    rwa [pow_one] at hplotted
  · obtain ⟨C, hC⟩ := exists_plotted_le hrungeKutta rungeKuttaRun_fills
    exact ⟨C, fun n i hn hi => hC n i (by omega) (hstep (by decide : 0 < 5) hn) hi⟩
  · exact tendsto_rmse h eulerRun_fills heuler (by norm_num) (by decide)
  · exact tendsto_rmse h rungeKuttaRun_fills hrungeKutta (by norm_num) (by decide)

theorem errors_tend_response :
    0 < distance (response (125 / 1202) (-115 / (1202 * √3)) (-125 / 1202) (300 / 601)) ∧
    Tendsto (fun n : ℕ => rmse (rungeKuttaRun (tFinal / n) n)) atTop
      (𝓝 (distance (response (125 / 1202) (-115 / (1202 * √3)) (-125 / 1202) (300 / 601)))) :=
  have h := errors_tend isSolution_response
  ⟨h.1, h.2.2.2.2⟩

end ReversalBench.Mat
