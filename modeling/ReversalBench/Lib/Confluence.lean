import ReversalBench.Lib.Machine

/-! Machines whose actions do not disturb each other. Where two enabled actions can
be taken in either order with the same result, a single run that ends decides
about all of them: no run is longer, and every run that is not yet as long goes on to
the same end. One schedule that is easy to follow is then enough. -/

namespace ReversalBench.Machine

variable {σ α : Type*} (step : σ → α → Option σ)

/-- Different actions that are enabled in one state can be taken in either order. -/
def Diamond : Prop :=
  ∀ s a b t u, a ≠ b → step s a = some t → step s b = some u →
    ∃ v, step t b = some v ∧ step u a = some v

/-- No action is enabled. -/
def Terminal (s : σ) : Prop := ∀ a, step s a = none

/-- Every run from `s` goes on to the terminal state `t`, with `n` steps altogether. -/
structure Settles (n : ℕ) (s t : σ) : Prop where
  terminal : Terminal step t
  goesOn : ∀ as u, run step as s = some u →
    ∃ bs, run step bs u = some t ∧ as.length + bs.length = n

variable {step} {n : ℕ} {s t u : σ}

/-- A step off a run that ends leads to the same end, one step nearer to it. -/
theorem Diamond.run_of_step [DecidableEq α] (h : Diamond step) {as : List α} {a : α}
    (hrun : run step as s = some t) (ht : Terminal step t) (hstep : step s a = some u) :
    ∃ bs, run step bs u = some t ∧ bs.length + 1 = as.length := by
  induction as generalizing s u with
  | nil =>
    cases hrun
    rw [ht a] at hstep
    cases hstep
  | cons b as ih =>
    rw [run_cons, Option.bind_eq_some_iff] at hrun
    obtain ⟨v, hv, hrest⟩ := hrun
    by_cases hab : a = b
    · subst hab
      rw [hv, Option.some.injEq] at hstep
      exact ⟨as, hstep ▸ hrest, rfl⟩
    · obtain ⟨w, huw, hvw⟩ := h s a b u v hab hstep hv
      obtain ⟨bs, hbs, hlen⟩ := ih hrest hvw
      exact ⟨b :: bs, by rw [run_cons, huw, Option.bind_some, hbs], congrArg Nat.succ hlen⟩

/-- One run that ends decides about all of them. -/
theorem Diamond.settles [DecidableEq α] (h : Diamond step) {as : List α}
    (hrun : run step as s = some t) (ht : Terminal step t) : Settles step as.length s t := by
  refine ⟨ht, fun bs => ?_⟩
  induction bs generalizing as s with
  | nil =>
    intro u hu
    cases hu
    exact ⟨as, hrun, Nat.zero_add _⟩
  | cons b bs ih =>
    intro u hu
    rw [run_cons, Option.bind_eq_some_iff] at hu
    obtain ⟨v, hv, hu⟩ := hu
    obtain ⟨cs, hcs, hlen⟩ := h.run_of_step hrun ht hv
    obtain ⟨ds, hds, hsum⟩ := ih hcs u hu
    exact ⟨ds, hds, by rw [List.length_cons]; omega⟩

end ReversalBench.Machine
