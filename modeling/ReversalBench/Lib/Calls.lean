import Mathlib.Data.List.Basic

/-! Objects that are only seen through their calls: a call returns a result and changes the
object. Two objects cannot be told apart if they are related and every call returns the same
result for related objects and keeps them related. -/

namespace ReversalBench.Calls

variable {σ α β : Type*} (call : σ → α → β × σ)

/-- The object after a list of calls. -/
def after (as : List α) (s : σ) : σ := as.foldl (fun s a => (call s a).2) s

/-- What the calls return, in order. -/
def results : List α → σ → List β
  | [], _ => []
  | a :: as, s => (call s a).1 :: results as (call s a).2

variable {call}

/-- What every call keeps holds after all calls. -/
theorem invariant_after {P : σ → Prop} (keep : ∀ s a, P s → P (call s a).2) (as : List α) {s : σ}
    (hs : P s) : P (after call as s) := by
  induction as generalizing s with
  | nil => exact hs
  | cons a as ih => exact ih (keep s a hs)

/-- Related objects answer alike for ever. -/
theorem results_eq {R : σ → σ → Prop}
    (keep : ∀ s t a, R s t → (call s a).1 = (call t a).1 ∧ R (call s a).2 (call t a).2)
    (as : List α) {s t : σ} (h : R s t) : results call as s = results call as t := by
  induction as generalizing s t with
  | nil => rfl
  | cons a as ih =>
    obtain ⟨hresult, hnext⟩ := keep s t a h
    simp only [results, hresult, ih hnext]

end ReversalBench.Calls
