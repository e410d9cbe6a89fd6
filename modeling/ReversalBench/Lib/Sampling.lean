import Mathlib

/-! Means of sampled values. Where the samples of a continuous function get denser, their mean tends
to its integral, also if each of them is off by a little. -/

namespace ReversalBench.Sampling

open Filter Topology
open Finset (range)
open MeasureTheory (volume)

variable {g : ℝ → ℝ}

/-- The part of the integral that one sample stands for. -/
theorem abs_piece_le (hg : Continuous g) {a b c : ℝ} (hab : a ≤ b)
    (hc : ∀ x ∈ Set.Icc a b, |g a - g x| ≤ c) :
    |(b - a) * g a - ∫ x in a..b, g x| ≤ c * (b - a) := by
  have hconst : (b - a) * g a = ∫ _ in a..b, g a := by
    rw [intervalIntegral.integral_const, smul_eq_mul]
  have hbound : ∀ x ∈ Set.uIoc a b, ‖g a - g x‖ ≤ c := by
    intro x hx
    rw [Set.uIoc_of_le hab] at hx
    exact hc x (Set.Ioc_subset_Icc_self hx)
  rw [hconst, ← intervalIntegral.integral_sub intervalIntegrable_const (hg.intervalIntegrable _ _),
    ← Real.norm_eq_abs, ← abs_of_nonneg (sub_nonneg.mpr hab)]
  exact intervalIntegral.norm_integral_le_of_norm_le_const hbound

/-- The sum over equal pieces. -/
theorem tendsto_sum (hg : Continuous g) :
    Tendsto (fun n : ℕ => (∑ i ∈ range n, g (i / n)) / n) atTop (𝓝 (∫ x in (0 : ℝ)..1, g x)) := by
  rw [Metric.tendsto_atTop]
  intro ε hε
  have huniform := isCompact_Icc.uniformContinuousOn_of_continuous
    (hg.continuousOn (s := Set.Icc (0 : ℝ) 1))
  rw [Metric.uniformContinuousOn_iff] at huniform
  obtain ⟨δ, hδ, hclose⟩ := huniform (ε / 2) (half_pos hε)
  obtain ⟨N, hN⟩ := exists_nat_gt (1 / δ)
  refine ⟨N, fun n hn => ?_⟩
  have hn0 : (0 : ℝ) < n := by
    have hN0 : (0 : ℝ) < N := (one_div_pos.mpr hδ).trans hN
    exact hN0.trans_le (Nat.cast_le.mpr hn)
  have hstep : 1 / (n : ℝ) < δ := by
    rw [one_div_lt hn0 hδ]
    exact hN.trans_le (Nat.cast_le.mpr hn)
  have hsum : ∑ i ∈ range n, ∫ x in (i : ℝ) / n..(i + 1 : ℕ) / n, g x = ∫ x in (0 : ℝ)..1, g x := by
    rw [intervalIntegral.sum_integral_adjacent_intervals (a := fun i : ℕ => (i : ℝ) / n)
      fun _ _ => hg.intervalIntegrable _ _]
    simp [hn0.ne']
  have hpiece : ∀ i ∈ range n,
      |g (i / n) / n - ∫ x in (i : ℝ) / n..(i + 1 : ℕ) / n, g x| ≤ ε / 2 * (1 / n) := by
    intro i hi
    have hin : (i : ℝ) + 1 ≤ n := by exact_mod_cast Finset.mem_range.mp hi
    have hlength : ((i + 1 : ℕ) : ℝ) / n - i / n = 1 / n := by
      push_cast
      ring
    have hab : (i : ℝ) / n ≤ (i + 1 : ℕ) / n := by
      rw [← sub_nonneg, hlength]
      positivity
    have hb : ((i + 1 : ℕ) : ℝ) / n ≤ 1 := by
      rw [div_le_one hn0]
      exact_mod_cast hin
    have hle := abs_piece_le hg hab (c := ε / 2) fun x hx => ?_
    · rw [hlength] at hle
      rwa [div_eq_inv_mul, ← one_div]
    · have ha : 0 ≤ (i : ℝ) / n := by positivity
      refine (hclose _ ⟨ha, hab.trans hb⟩ x ⟨ha.trans hx.1, hx.2.trans hb⟩ ?_).le
      rw [dist_comm, Real.dist_eq, abs_of_nonneg (sub_nonneg.mpr hx.1)]
      linarith [hx.2]
  rw [Real.dist_eq, ← hsum, Finset.sum_div, ← Finset.sum_sub_distrib]
  calc |∑ i ∈ range n, (g (i / n) / n - ∫ x in (i : ℝ) / n..(i + 1 : ℕ) / n, g x)|
      ≤ ∑ i ∈ range n, |g (i / n) / n - ∫ x in (i : ℝ) / n..(i + 1 : ℕ) / n, g x| :=
        Finset.abs_sum_le_sum_abs _ _
    _ ≤ ∑ i ∈ range n, ε / 2 * (1 / n) := Finset.sum_le_sum hpiece
    _ = ε / 2 := by
      rw [Finset.sum_const, Finset.card_range, nsmul_eq_mul]
      field_simp
    _ < ε := half_lt_self hε

/-- The last sample is one more. -/
theorem tendsto_mean (hg : Continuous g) :
    Tendsto (fun n : ℕ => (∑ i ∈ range (n + 1), g (i / n)) / (n + 1 : ℕ)) atTop
      (𝓝 (∫ x in (0 : ℝ)..1, g x)) := by
  have hlast : Tendsto (fun n : ℕ => g 1 / ((n : ℝ) + 1)) atTop (𝓝 0) :=
    tendsto_const_nhds.div_atTop (tendsto_natCast_atTop_atTop.atTop_add tendsto_const_nhds)
  have hratio : Tendsto (fun n : ℕ => (n : ℝ) / (n + 1)) atTop (𝓝 1) :=
    tendsto_natCast_div_add_atTop 1
  have hall := ((tendsto_sum hg).mul hratio).add hlast
  rw [mul_one, add_zero] at hall
  refine hall.congr' ?_
  filter_upwards [eventually_gt_atTop 0] with n hn
  have hn0 : (n : ℝ) ≠ 0 := by positivity
  have hn1 : (n : ℝ) + 1 ≠ 0 := by positivity
  rw [Finset.sum_range_succ, div_self hn0, Nat.cast_succ]
  field_simp

/-- Each sample is off by no more than `err`. -/
theorem tendsto_mean_of_le (hg : Continuous g) {v : ℕ → ℕ → ℝ} {err : ℕ → ℝ}
    (hv : ∀ᶠ n : ℕ in atTop, ∀ i ≤ n, |v n i - g (i / n)| ≤ err n)
    (herr : Tendsto err atTop (𝓝 0)) :
    Tendsto (fun n : ℕ => (∑ i ∈ range (n + 1), v n i) / (n + 1 : ℕ)) atTop
      (𝓝 (∫ x in (0 : ℝ)..1, g x)) := by
  have hdiff : Tendsto (fun n : ℕ => (∑ i ∈ range (n + 1), v n i) / (n + 1 : ℕ) -
      (∑ i ∈ range (n + 1), g (i / n)) / (n + 1 : ℕ)) atTop (𝓝 0) := by
    refine squeeze_zero_norm' ?_ herr
    filter_upwards [hv] with n hn
    have hn1 : (0 : ℝ) < (n + 1 : ℕ) := by positivity
    rw [← sub_div, ← Finset.sum_sub_distrib, Real.norm_eq_abs, abs_div, abs_of_pos hn1,
      div_le_iff₀ hn1]
    calc |∑ i ∈ range (n + 1), (v n i - g (i / n))|
        ≤ ∑ i ∈ range (n + 1), |v n i - g (i / n)| := Finset.abs_sum_le_sum_abs _ _
      _ ≤ ∑ _i ∈ range (n + 1), err n := by
        apply Finset.sum_le_sum
        intro i hi
        exact hn i (Nat.lt_succ_iff.mp (Finset.mem_range.mp hi))
      _ = err n * (n + 1 : ℕ) := by
        rw [Finset.sum_const, Finset.card_range, nsmul_eq_mul, mul_comm]
  simpa using hdiff.add (tendsto_mean hg)

end ReversalBench.Sampling
