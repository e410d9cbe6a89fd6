import Mathlib.Data.List.Induction
import Mathlib.Computability.StateTransition
import Mathlib.Data.Option.Basic

/-! Machines driven by a list of actions. A partial step function says which
actions are enabled in a state and what they do; a run is a list of actions
that are enabled one after the other. Interleavings of several parties are
lists of actions, so a fact about all runs is a fact about all interleavings.
What a run does besides moving the state is read off by an observation of its
steps. A machine that leaves no choice is a partial function on states; it halts
where the function stops. -/

namespace ReversalBench.Machine

variable {σ τ α β γ : Type*}

section Run

variable (step : σ → α → Option σ)

/-- The state after a list of actions, if each of them is enabled in its turn. -/
def run : List α → σ → Option σ
  | [], s => some s
  | a :: as, s => (step s a).bind (run as)

@[simp] theorem run_nil (s : σ) : run step [] s = some s := rfl

theorem run_cons (a : α) (as : List α) (s : σ) :
    run step (a :: as) s = (step s a).bind (run step as) := rfl

theorem run_append (as bs : List α) (s : σ) :
    run step (as ++ bs) s = (run step as s).bind (run step bs) := by
  induction as generalizing s with
  | nil => rfl
  | cons a as ih =>
    simp only [List.cons_append, run_cons, Option.bind_assoc]
    exact congrArg _ (funext ih)

theorem run_concat (as : List α) (a : α) (s : σ) :
    run step (as ++ [a]) s = (run step as s).bind (step · a) := by
  rw [run_append]
  congr 1
  funext t
  simp only [run]
  cases step t a <;> rfl

variable {step}

theorem run_trans {as bs : List α} {s t u : σ} (h₁ : run step as s = some t)
    (h₂ : run step bs t = some u) : run step (as ++ bs) s = some u := by
  rw [run_append, h₁, Option.bind_some, h₂]

theorem run_of_step {a : α} {s t : σ} (h : step s a = some t) : run step [a] s = some t := by
  rw [run_cons, h]; rfl

/-- A run is either empty or has a last step. -/
theorem run_concat_eq_some {as : List α} {a : α} {s u : σ} :
    run step (as ++ [a]) s = some u ↔ ∃ t, run step as s = some t ∧ step t a = some u := by
  rw [run_concat, Option.bind_eq_some_iff]

/-- What holds at the start and is kept by each step holds along every run. -/
theorem run_induction {s : σ} {P : List α → σ → Prop} (nil : P [] s)
    (concat : ∀ as t a u, run step as s = some t → P as t → step t a = some u → P (as ++ [a]) u) :
    ∀ as t, run step as s = some t → P as t := by
  intro as
  induction as using List.reverseRecOn with
  | nil =>
    intro t h
    cases h
    exact nil
  | append_singleton as a ih =>
    intro u h
    obtain ⟨t, ht, hu⟩ := run_concat_eq_some.mp h
    exact concat as t a u ht (ih t ht) hu

/-- An invariant of the single steps is an invariant of the runs. -/
theorem invariant_run {P : σ → Prop} (keep : ∀ s a t, P s → step s a = some t → P t)
    {as : List α} {s t : σ} (hs : P s) (h : run step as s = some t) : P t :=
  run_induction (P := fun _ => P) hs (fun _ s a t _ hs ht => keep s a t hs ht) as t h

end Run

section Log

variable (step : σ → α → Option σ) (obs : σ → α → Option β)

/-- What the steps of a run let an observer see, in order. -/
def log : List α → σ → List β
  | [], _ => []
  | a :: as, s => (obs s a).toList ++ ((step s a).map (log as)).getD []

@[simp] theorem log_nil (s : σ) : log step obs [] s = [] := rfl

theorem log_append {as : List α} {s t : σ} (h : run step as s = some t) (bs : List α) :
    log step obs (as ++ bs) s = log step obs as s ++ log step obs bs t := by
  induction as generalizing s with
  | nil => cases h; rfl
  | cons a as ih =>
    rw [run_cons, Option.bind_eq_some_iff] at h
    obtain ⟨u, hu, ht⟩ := h
    simp only [List.cons_append, log, hu, Option.map_some, Option.getD_some, ih ht,
      List.append_assoc]

theorem log_concat {as : List α} {s t : σ} (h : run step as s = some t) (a : α) :
    log step obs (as ++ [a]) s = log step obs as s ++ (obs t a).toList := by
  rw [log_append step obs h]
  simp only [log]
  cases step t a <;> simp

variable {step obs}

/-- An invariant that ties the state to what has been observed so far. -/
theorem log_induction {s : σ} {P : List β → σ → Prop} (nil : P [] s)
    (concat : ∀ l t a u, P l t → step t a = some u → P (l ++ (obs t a).toList) u)
    {as : List α} {t : σ} (h : run step as s = some t) : P (log step obs as s) t := by
  refine run_induction (P := fun as t => P (log step obs as s) t) nil ?_ as t h
  intro as t a u ht hP hu
  rw [log_concat step obs ht]
  exact concat _ t a u hP hu

end Log

section Along

variable (step : σ → α → Option σ) (C : σ → α → Prop)

/-- Every step of the run is taken in a state that meets the condition. -/
def Along : List α → σ → Prop
  | [], _ => True
  | a :: as, s => C s a ∧ ∀ t, step s a = some t → Along as t

variable {step C}

instance decidableAlong [∀ s a, Decidable (C s a)] : ∀ as s, Decidable (Along step C as s)
  | [], _ => isTrue trivial
  | a :: as, s =>
    match h : step s a with
    | none => decidable_of_iff (C s a) (by simp [Along, h])
    | some t =>
      have := decidableAlong as t
      decidable_of_iff (C s a ∧ Along step C as t) (by simp [Along, h])

theorem along_append {as bs : List α} {s t : σ} (h : run step as s = some t) :
    Along step C (as ++ bs) s ↔ Along step C as s ∧ Along step C bs t := by
  induction as generalizing s with
  | nil => cases h; simp [Along]
  | cons a as ih =>
    rw [run_cons, Option.bind_eq_some_iff] at h
    obtain ⟨u, hu, ht⟩ := h
    simp only [List.cons_append, Along, hu, Option.some.injEq, forall_eq', ih ht, and_assoc]

theorem along_concat {as : List α} {a : α} {s t : σ} (h : run step as s = some t) :
    Along step C (as ++ [a]) s ↔ Along step C as s ∧ C t a := by
  rw [along_append h]
  simp [Along]

end Along

section Sometime

variable (step : σ → α → Option σ) (C : σ → α → Prop)

/-- Some step of the run is taken in a state that meets the condition. -/
def Sometime : List α → σ → Prop
  | [], _ => False
  | a :: as, s => C s a ∨ ∃ t, step s a = some t ∧ Sometime as t

variable {step C}

instance decidableSometime [∀ s a, Decidable (C s a)] :
    ∀ as s, Decidable (Sometime step C as s)
  | [], _ => isFalse id
  | a :: as, s =>
    match h : step s a with
    | none => decidable_of_iff (C s a) (by simp [Sometime, h])
    | some t =>
      have := decidableSometime as t
      decidable_of_iff (C s a ∨ Sometime step C as t) (by simp [Sometime, h])

theorem sometime_concat {as : List α} {a : α} {s t : σ} (h : run step as s = some t) :
    Sometime step C (as ++ [a]) s ↔ Sometime step C as s ∨ C t a := by
  induction as generalizing s with
  | nil =>
    cases h
    simp [Sometime]
  | cons b as ih =>
    rw [run_cons, Option.bind_eq_some_iff] at h
    obtain ⟨u, hu, ht⟩ := h
    simp only [List.cons_append, Sometime, hu, Option.some.injEq, exists_eq_left', ih ht, or_assoc]

/-- What holds at every step from the states of an invariant holds along every run. -/
theorem along_of_invariant {I : σ → Prop} (keep : ∀ s a t, I s → step s a = some t → I t)
    (hC : ∀ s a t, I s → step s a = some t → C s a) {as : List α} {s t : σ} (hs : I s)
    (h : run step as s = some t) : Along step C as s := by
  refine (run_induction (P := fun as t => I t ∧ Along step C as s) ⟨hs, trivial⟩ ?_ as t h).2
  rintro as t a u ht ⟨hI, halong⟩ hu
  exact ⟨keep t a u hI hu, (along_concat ht).mpr ⟨halong, hC t a u hI hu⟩⟩

/-- Always the one, or sometimes the other. -/
theorem along_iff_not_sometime {I : σ → Prop} {D : σ → α → Prop}
    (keep : ∀ s a t, I s → step s a = some t → I t)
    (hCD : ∀ s a t, I s → step s a = some t → (C s a ↔ ¬D s a)) {as : List α} {s t : σ} (hs : I s)
    (h : run step as s = some t) : Along step C as s ↔ ¬Sometime step D as s := by
  refine (run_induction (P := fun as t => I t ∧ (Along step C as s ↔ ¬Sometime step D as s))
    ⟨hs, by simp [Along, Sometime]⟩ ?_ as t h).2
  rintro as t a u ht ⟨hI, hiff⟩ hu
  refine ⟨keep t a u hI hu, ?_⟩
  rw [along_concat ht, sometime_concat ht, hiff, hCD t a u hI hu, not_or]

end Sometime

section Projection

variable {step : σ → α → Option σ} {part : τ → γ → Option τ}

/-- A party of a larger machine runs too: the steps of the whole that involve the
party are steps of the party, the others leave its state alone. -/
theorem run_project (view : σ → τ) (act : σ → α → Option γ)
    (moves : ∀ s a t b, step s a = some t → act s a = some b → part (view s) b = some (view t))
    (rests : ∀ s a t, step s a = some t → act s a = none → view t = view s)
    {as : List α} {s t : σ} (h : run step as s = some t) :
    run part (log step act as s) (view s) = some (view t) := by
  refine log_induction (P := fun l t => run part l (view s) = some (view t)) rfl ?_ h
  intro l t a u ht hu
  cases hb : act t a with
  | none => simpa [rests t a u hu hb] using ht
  | some b =>
    rw [Option.toList_some, run_concat, ht, Option.bind_some]
    exact moves t a u b hu hb

end Projection

section Simulation

variable {step : σ → α → Option σ} {step' : τ → α → Option τ} {R : σ → τ → Prop} {C : σ → α → Prop}
  {C' : τ → α → Prop} {obs : σ → α → Option β} {obs' : τ → α → Option β}

end Simulation

section Halting

open StateTransition (Reaches)

variable {next : σ → Option σ}

/-- An invariant of the single moves is an invariant of what is reached. -/
theorem invariant_reaches {P : σ → Prop} (keep : ∀ s t, P s → next s = some t → P t) {s t : σ}
    (hs : P s) (h : Reaches next s t) : P t := by
  induction h with
  | refl => exact hs
  | tail _ hstep ih => exact keep _ _ ih hstep

/-- The machine gets from `s` to `t` and stops there. -/
def Halts (next : σ → Option σ) (s t : σ) : Prop := Reaches next s t ∧ next t = none

theorem halts_of_none {s : σ} (h : next s = none) : Halts next s s := ⟨.refl, h⟩

theorem halts_of_step {s t u : σ} (h : next s = some t) (ht : Halts next t u) : Halts next s u :=
  ⟨.head h ht.1, ht.2⟩

/-- A machine that stops later goes on from each state it moves to. -/
theorem Halts.of_next {s t u : σ} (h : Halts next s u) (hst : next s = some t) :
    Halts next t u := by
  refine ⟨?_, h.2⟩
  rcases Relation.ReflTransGen.cases_head h.1 with rfl | ⟨v, hv, hreach⟩
  · rw [h.2] at hst
    cases hst
  · have hv : next s = some v := hv
    rw [hst, Option.some.injEq] at hv
    exact hv ▸ hreach

theorem Halts.of_reaches {s t u : σ} (h : Halts next s u) (hst : Reaches next s t) :
    Halts next t u := by
  induction hst with
  | refl => exact h
  | tail _ hstep ih => exact ih.of_next hstep

/-- There is only one state in which the machine can stop. -/
theorem Halts.unique {s t u : σ} (ht : Halts next s t) (hu : Halts next s u) : t = u :=
  Part.mem_unique (StateTransition.mem_eval.mpr ht) (StateTransition.mem_eval.mpr hu)

/-- A measure that every move before the end decreases makes the machine halt. -/
theorem halts_of_measure {P Q : σ → Prop} (μ : σ → ℕ)
    (move : ∀ s, P s → ∃ t, next s = some t ∧ (P t ∧ μ t < μ s ∨ Q t))
    (stop : ∀ s, Q s → next s = none) {s : σ} (hs : P s) : ∃ t, Halts next s t ∧ Q t := by
  induction h : μ s using Nat.strong_induction_on generalizing s with
  | h n ih =>
    obtain ⟨t, hnext, ⟨ht, hlt⟩ | ht⟩ := move s hs
    · obtain ⟨u, hu, hQ⟩ := ih (μ t) (h ▸ hlt) ht rfl
      exact ⟨u, halts_of_step hnext hu, hQ⟩
    · exact ⟨t, halts_of_step hnext (halts_of_none (stop t ht)), ht⟩

theorem reaches_simulate {next' : τ → Option τ} {R : σ → τ → Prop}
    (follow : ∀ s s' t, R s s' → next s = some t → ∃ t', next' s' = some t' ∧ R t t') {s t : σ}
    {s' : τ} (hs : R s s') (h : Reaches next s t) : ∃ t', Reaches next' s' t' ∧ R t t' := by
  induction h with
  | refl => exact ⟨s', .refl, hs⟩
  | tail _ hstep ih =>
    obtain ⟨u', hu', hR⟩ := ih
    obtain ⟨v', hv', hR'⟩ := follow _ u' _ hR hstep
    exact ⟨v', hu'.tail hv', hR'⟩

theorem halts_of_reaches {s t u : σ} (h : Reaches next s t) (ht : Halts next t u) :
    Halts next s u := ⟨h.trans ht.1, ht.2⟩

/-- The machine together with what its moves so far have let an observer see. -/
def observed (next : σ → Option σ) (obs : σ → Option β) (s : σ × List β) : Option (σ × List β) :=
  (next s.1).map fun t => (t, s.2 ++ (obs s.1).toList)

theorem observed_eq_some {obs : σ → Option β} {s t : σ × List β} :
    observed next obs s = some t ↔ next s.1 = some t.1 ∧ t.2 = s.2 ++ (obs s.1).toList := by
  rw [observed, Option.map_eq_some_iff]
  constructor
  · rintro ⟨u, hu, rfl⟩
    exact ⟨hu, rfl⟩
  · rintro ⟨hnext, hlog⟩
    exact ⟨t.1, hnext, by rw [← hlog]⟩

theorem reaches_observed {s t : σ} (h : Reaches next s t) (obs : σ → Option β) (l : List β) :
    ∃ l', Reaches (observed next obs) (s, l) (t, l') := by
  induction h with
  | refl => exact ⟨l, .refl⟩
  | tail _ hstep ih =>
    obtain ⟨l', hl⟩ := ih
    exact ⟨_, hl.tail (observed_eq_some.mpr ⟨hstep, rfl⟩)⟩

/-- Being observed does not change where the machine halts. -/
theorem Halts.observed {s t : σ} (h : Halts next s t) (obs : σ → Option β) (l : List β) :
    ∃ l', Halts (observed next obs) (s, l) (t, l') := by
  obtain ⟨l', hl⟩ := reaches_observed h.1 obs l
  exact ⟨l', hl, by simp [Machine.observed, h.2]⟩

end Halting

end ReversalBench.Machine
