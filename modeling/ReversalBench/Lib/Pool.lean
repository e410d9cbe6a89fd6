import ReversalBench.Lib.Machine
import Mathlib.Algebra.BigOperators.Group.List.Basic
import Mathlib.Algebra.GroupWithZero.Nat

/-! Pools of components that share a state, such as the connections of one server. A step
is a step of the shared state, or of one component, which may read the shared state and
change it. What each component keeps and the others leave alone holds of all of them, and
measures of the components add up. A component that does not look at the shared state runs
as it would alone. -/

namespace ReversalBench

variable {γ σ α β : Type*}

/-- The shared state and the components. -/
structure Pool (γ σ : Type*) where
  shared : γ
  parts : List σ

namespace Pool

/-- A step of the shared state, or of the component with an index. -/
inductive Act (α β : Type*) where
  | all (a : α)
  | part (i : ℕ) (b : β)

section Step

variable (common : γ → α → Option γ) (part : γ → σ → β → Option (γ × σ))

def step (p : Pool γ σ) : Act α β → Option (Pool γ σ)
  | .all a => (common p.shared a).map fun shared => { p with shared }
  | .part i b => p.parts[i]?.bind fun s =>
      (part p.shared s b).map fun (shared, s) => ⟨shared, p.parts.set i s⟩

variable {common part} {p q : Pool γ σ}

theorem all_iff {a : α} : step common part p (.all a) = some q ↔
    common p.shared a = some q.shared ∧ q.parts = p.parts := by
  rcases q with ⟨shared, parts⟩
  simp only [step, Option.map_eq_some_iff, Pool.mk.injEq]
  constructor
  · rintro ⟨g, hg, rfl, rfl⟩
    exact ⟨hg, rfl⟩
  · rintro ⟨hg, rfl⟩
    exact ⟨shared, hg, rfl, rfl⟩

theorem part_iff {i : ℕ} {b : β} : step common part p (.part i b) = some q ↔
    ∃ s t, p.parts[i]? = some s ∧ part p.shared s b = some (q.shared, t) ∧
      q.parts = p.parts.set i t := by
  rcases q with ⟨shared, parts⟩
  simp only [step, Option.bind_eq_some_iff, Option.map_eq_some_iff, Prod.exists, Pool.mk.injEq]
  constructor
  · rintro ⟨s, hs, g, t, hstep, rfl, rfl⟩
    exact ⟨s, t, hs, hstep, rfl⟩
  · rintro ⟨s, t, hs, hstep, rfl⟩
    exact ⟨s, hs, shared, t, hstep, rfl, rfl⟩

/-- A component can take a step in the pool when it can by itself. -/
theorem exists_part {i : ℕ} {b : β} {s t : σ} {g : γ} (hs : p.parts[i]? = some s)
    (h : part p.shared s b = some (g, t)) :
    step common part p (.part i b) = some ⟨g, p.parts.set i t⟩ :=
  part_iff.mpr ⟨s, t, hs, h, rfl⟩

/-! ### Invariants -/

/-- What holds of each component. -/
def Each (I : ℕ → γ → σ → Prop) (p : Pool γ σ) : Prop :=
  ∀ i s, p.parts[i]? = some s → I i p.shared s

/-- A property of the components is kept by their own steps, and by what the other steps do
to the shared state. -/
theorem Each.of_step {I : ℕ → γ → σ → Prop} {a : Act α β} (h : Each I p)
    (own : ∀ i g s b g' t, I i g s → part g s b = some (g', t) → I i g' t)
    (other : ∀ i g s b g' t u, I i g u → part g s b = some (g', t) → I i g' u)
    (all : ∀ i g a g' s, I i g s → common g a = some g' → I i g' s)
    (hs : step common part p a = some q) : Each I q := by
  intro i u hu
  cases a with
  | all a =>
    obtain ⟨hg, hparts⟩ := all_iff.mp hs
    rw [hparts] at hu
    exact all i _ a _ u (h i u hu) hg
  | part j b =>
    obtain ⟨s, t, hj, hstep, hparts⟩ := part_iff.mp hs
    rw [hparts] at hu
    by_cases hij : j = i
    · subst hij
      obtain ⟨hlt, -⟩ := List.getElem?_eq_some_iff.mp hj
      rw [List.getElem?_set_self hlt, Option.some.injEq] at hu
      subst hu
      exact own j _ s b _ t (h j s hj) hstep
    · rw [List.getElem?_set_ne hij] at hu
      exact other i _ s b _ t u (h i u hu) hstep

/-! ### Measures -/

/-- The step of component `i`. -/
def actionAt (i : ℕ) (_ : Pool γ σ) : Act α β → Option β
  | .all _ => none
  | .part j b => if j = i then some b else none

/-- A component whose steps do not depend on the shared state takes them as it would alone. -/
theorem run_part {alone : σ → β → Option σ}
    (hpart : ∀ g s b g' t, part g s b = some (g', t) → alone s b = some t) {i : ℕ}
    {as : List (Act α β)} (h : Machine.run (step common part) as p = some q) {s : σ}
    (hs : p.parts[i]? = some s) : ∃ t, q.parts[i]? = some t ∧
      Machine.run alone (Machine.log (step common part) (actionAt i) as p) s = some t := by
  refine Machine.log_induction (P := fun l q => ∃ t, q.parts[i]? = some t ∧
    Machine.run alone l s = some t) ⟨s, hs, rfl⟩ ?_ h
  rintro l q a r ⟨t, ht, hrun⟩ hstep
  cases a with
  | all a =>
    obtain ⟨-, hparts⟩ := all_iff.mp hstep
    exact ⟨t, hparts ▸ ht, by simpa [actionAt] using hrun⟩
  | part j b =>
    obtain ⟨u, v, hj, hb, hparts⟩ := part_iff.mp hstep
    by_cases hij : j = i
    · subst hij
      rw [ht, Option.some.injEq] at hj
      subst hj
      obtain ⟨hlt, -⟩ := List.getElem?_eq_some_iff.mp ht
      refine ⟨v, by rw [hparts, List.getElem?_set_self hlt], ?_⟩
      simp only [actionAt, if_true, Option.toList_some]
      rw [Machine.run_concat, hrun, Option.bind_some]
      exact hpart _ _ _ _ _ hb
    · refine ⟨t, by rw [hparts, List.getElem?_set_ne hij, ht], ?_⟩
      simpa [actionAt, hij] using hrun

end Step

end Pool

end ReversalBench
