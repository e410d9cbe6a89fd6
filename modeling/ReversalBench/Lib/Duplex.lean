import ReversalBench.Lib.Confluence

/-! Two programs joined by a channel in each direction. A channel keeps the order and
loses nothing; what was written is under way for as long as it likes and arrives
element by element. A program takes its next step as soon as what has arrived is
enough for it, and then more would not have made a difference: it waits for a certain
part of the stream and leaves the rest alone. Therefore the order in which the two
programs and the network act does not matter. -/

namespace ReversalBench

variable {σ τ α : Type*}

/-- What a step of a program does: it goes on in a state, having taken elements from the
front of what has arrived and written others. -/
structure Effect (σ α : Type*) where
  state : σ
  consumed : ℕ
  written : List α

/-- A program that reads one stream and writes another. Its step depends on what has
arrived and is not yet read. Where it is possible, more input does not change it. -/
structure Endpoint (σ α : Type*) where
  step : σ → List α → Option (Effect σ α)
  consumed_le : ∀ {s l r}, step s l = some r → r.consumed ≤ l.length
  eager : ∀ {s l r}, step s l = some r → ∀ m, step s (l ++ m) = some r

/-- Both programs, what has arrived at each of them and what is under way to it. -/
structure Duplex (σ τ α : Type*) where
  left : σ
  right : τ
  atLeft : List α
  atRight : List α
  toLeft : List α
  toRight : List α

namespace Duplex

/-- A program takes a step, or the first element under way to it arrives. -/
inductive Move where
  | left | right | arriveLeft | arriveRight
  deriving DecidableEq

variable (E : Endpoint σ α) (F : Endpoint τ α)

def step (c : Duplex σ τ α) : Move → Option (Duplex σ τ α)
  | .left => (E.step c.left c.atLeft).map fun r =>
    { c with
      left := r.state
      atLeft := c.atLeft.drop r.consumed
      toRight := c.toRight ++ r.written }
  | .right => (F.step c.right c.atRight).map fun r =>
    { c with
      right := r.state
      atRight := c.atRight.drop r.consumed
      toLeft := c.toLeft ++ r.written }
  | .arriveLeft =>
    match c.toLeft with
    | [] => none
    | a :: as => some { c with atLeft := c.atLeft ++ [a], toLeft := as }
  | .arriveRight =>
    match c.toRight with
    | [] => none
    | a :: as => some { c with atRight := c.atRight ++ [a], toRight := as }

/-- Nothing is under way yet. -/
def start (left : σ) (right : τ) : Duplex σ τ α := ⟨left, right, [], [], [], []⟩

/-- The same connection, seen from the other side. -/
def swap (c : Duplex σ τ α) : Duplex τ σ α :=
  ⟨c.right, c.left, c.atRight, c.atLeft, c.toRight, c.toLeft⟩

def Move.swap : Move → Move
  | .left => .right
  | .right => .left
  | .arriveLeft => .arriveRight
  | .arriveRight => .arriveLeft

variable {E F}

theorem step_swap (c : Duplex σ τ α) (a : Move) :
    step F E c.swap a.swap = (step E F c a).map swap := by
  cases a with
  | left => simp only [step, swap, Move.swap, Option.map_map, Function.comp_def]
  | right => simp only [step, swap, Move.swap, Option.map_map, Function.comp_def]
  | arriveLeft => rcases c with ⟨s, q, l, m, _ | ⟨a, x⟩, y⟩ <;> rfl
  | arriveRight => rcases c with ⟨s, q, l, m, x, _ | ⟨a, y⟩⟩ <;> rfl

theorem step_left {s : σ} {q : τ} {l m x y : List α} {r : Effect σ α}
    (h : E.step s l = some r) : step E F ⟨s, q, l, m, x, y⟩ .left =
      some ⟨r.state, q, l.drop r.consumed, m, x, y ++ r.written⟩ := by
  simp only [step, h, Option.map_some]

theorem step_right {s : σ} {q : τ} {l m x y : List α} {r : Effect τ α}
    (h : F.step q m = some r) : step E F ⟨s, q, l, m, x, y⟩ .right =
      some ⟨s, r.state, l, m.drop r.consumed, x ++ r.written, y⟩ := by
  simp only [step, h, Option.map_some]

/-! ### The order of steps does not matter -/

/-- Whatever happens on the other side and in the network while a program could take a
step, it can take the same step afterwards. -/
theorem left_commutes {c t u : Duplex σ τ α} {b : Move} (hb : b ≠ .left)
    (ht : step E F c .left = some t) (hu : step E F c b = some u) :
    ∃ v, step E F t b = some v ∧ step E F u .left = some v := by
  obtain ⟨s, q, l, m, x, y⟩ := c
  simp only [step, Option.map_eq_some_iff] at ht
  obtain ⟨r, hr, rfl⟩ := ht
  cases b with
  | left => exact absurd rfl hb
  | right =>
    simp only [step, Option.map_eq_some_iff] at hu
    obtain ⟨r', hr', rfl⟩ := hu
    exact ⟨_, step_right hr', step_left hr⟩
  | arriveLeft =>
    cases x with
    | nil => cases hu
    | cons a x =>
      cases hu
      refine ⟨_, rfl, ?_⟩
      rw [step_left (E.eager hr [a]), List.drop_append_of_le_length (E.consumed_le hr)]
  | arriveRight =>
    cases y with
    | nil => cases hu
    | cons a y =>
      cases hu
      exact ⟨_, rfl, step_left hr⟩

/-- The two channels deliver independently. -/
theorem arrivals_commute {c t u : Duplex σ τ α} (ht : step E F c .arriveLeft = some t)
    (hu : step E F c .arriveRight = some u) :
    ∃ v, step E F t .arriveRight = some v ∧ step E F u .arriveLeft = some v := by
  obtain ⟨s, q, l, m, x, y⟩ := c
  cases x with
  | nil => cases ht
  | cons a x =>
    cases y with
    | nil => cases hu
    | cons b y =>
      cases ht
      cases hu
      exact ⟨_, rfl, rfl⟩

theorem swap_eq_some {c t : Duplex σ τ α} {a : Move} (h : step E F c a = some t) :
    step F E c.swap a.swap = some t.swap := by
  rw [step_swap, h, Option.map_some]

theorem right_commutes {c t u : Duplex σ τ α} {b : Move} (hb : b ≠ .right)
    (ht : step E F c .right = some t) (hu : step E F c b = some u) :
    ∃ v, step E F t b = some v ∧ step E F u .right = some v := by
  have hb' : b.swap ≠ .left := by
    cases b <;> simp [Move.swap] at hb ⊢
  obtain ⟨v, htv, huv⟩ := left_commutes hb' (swap_eq_some ht) (swap_eq_some hu)
  have hback : ∀ (d : Duplex σ τ α) (a : Move), step F E d.swap a.swap = some v →
      step E F d a = some v.swap := by
    intro d a h
    have hd := swap_eq_some h
    cases a <;> exact hd
  exact ⟨v.swap, hback _ _ htv, hback u .right huv⟩

theorem diamond (E : Endpoint σ α) (F : Endpoint τ α) : Machine.Diamond (step E F) := by
  intro c a b t u hab ht hu
  cases a with
  | left => exact left_commutes hab.symm ht hu
  | right => exact right_commutes hab.symm ht hu
  | arriveLeft =>
    cases b with
    | left =>
      obtain ⟨v, huv, htv⟩ := left_commutes hab hu ht
      exact ⟨v, htv, huv⟩
    | right =>
      obtain ⟨v, huv, htv⟩ := right_commutes hab hu ht
      exact ⟨v, htv, huv⟩
    | arriveLeft => exact absurd rfl hab
    | arriveRight => exact arrivals_commute ht hu
  | arriveRight =>
    cases b with
    | left =>
      obtain ⟨v, huv, htv⟩ := left_commutes hab hu ht
      exact ⟨v, htv, huv⟩
    | right =>
      obtain ⟨v, huv, htv⟩ := right_commutes hab hu ht
      exact ⟨v, htv, huv⟩
    | arriveLeft =>
      obtain ⟨v, huv, htv⟩ := arrivals_commute hu ht
      exact ⟨v, htv, huv⟩
    | arriveRight => exact absurd rfl hab

end Duplex

/-! ### Turns -/

/-- Alone with what has arrived, a program gets from one state to another, leaving the
input `l'` and having written `w`. -/
inductive Endpoint.Turn (E : Endpoint σ α) : σ → List α → List α → σ → List α → Prop
  | refl {s l} : Turn E s l [] s l
  | head {s l r w t l'} : E.step s l = some r → Turn E r.state (l.drop r.consumed) w t l' →
      Turn E s l (r.written ++ w) t l'

/-- A step, with what it leaves and what is written in all. -/
theorem Endpoint.Turn.cons {E : Endpoint σ α} {s t u : σ} {l l₁ l' w w' v : List α} {k : ℕ}
    (hstep : E.step s l = some ⟨t, k, w⟩) (hrest : l.drop k = l₁) (h : E.Turn t l₁ w' u l')
    (hv : w ++ w' = v) : E.Turn s l v u l' := by
  subst hrest hv
  exact .head hstep h

namespace Duplex

open Machine (run)

variable {E : Endpoint σ α} {F : Endpoint τ α}

theorem run_turn_left {s t : σ} {l l' w : List α} (h : E.Turn s l w t l') (q : τ)
    (m x y : List α) :
    ∃ as, run (step E F) as ⟨s, q, l, m, x, y⟩ = some ⟨t, q, l', m, x, y ++ w⟩ := by
  induction h generalizing y with
  | refl => exact ⟨[], by rw [List.append_nil]; rfl⟩
  | @head s l r w t l' hstep _ ih =>
    obtain ⟨as, has⟩ := ih (y ++ r.written)
    refine ⟨.left :: as, ?_⟩
    rw [Machine.run_cons, step_left hstep, Option.bind_some, has, List.append_assoc]

theorem run_turn_right {q q' : τ} {m m' w : List α} (h : F.Turn q m w q' m') (s : σ)
    (l x y : List α) :
    ∃ as, run (step E F) as ⟨s, q, l, m, x, y⟩ = some ⟨s, q', l, m', x ++ w, y⟩ := by
  induction h generalizing x with
  | refl => exact ⟨[], by rw [List.append_nil]; rfl⟩
  | @head q m r w q' m' hstep _ ih =>
    obtain ⟨as, has⟩ := ih (x ++ r.written)
    refine ⟨.right :: as, ?_⟩
    rw [Machine.run_cons, step_right hstep, Option.bind_some, has, List.append_assoc]

/-- All that is under way arrives. -/
theorem run_arriveLeft (s : σ) (q : τ) (l m x y : List α) :
    ∃ as, run (step E F) as ⟨s, q, l, m, x, y⟩ = some ⟨s, q, l ++ x, m, [], y⟩ := by
  induction x generalizing l with
  | nil => exact ⟨[], by rw [List.append_nil]; rfl⟩
  | cons a x ih =>
    obtain ⟨as, has⟩ := ih (l ++ [a])
    refine ⟨.arriveLeft :: as, ?_⟩
    rw [Machine.run_cons]
    simp only [step, Option.bind_some, has, List.append_assoc, List.singleton_append]

theorem run_arriveRight (s : σ) (q : τ) (l m x y : List α) :
    ∃ as, run (step E F) as ⟨s, q, l, m, x, y⟩ = some ⟨s, q, l, m ++ y, x, []⟩ := by
  induction y generalizing m with
  | nil => exact ⟨[], by rw [List.append_nil]; rfl⟩
  | cons a y ih =>
    obtain ⟨as, has⟩ := ih (m ++ [a])
    refine ⟨.arriveRight :: as, ?_⟩
    rw [Machine.run_cons]
    simp only [step, Option.bind_some, has, List.append_assoc, List.singleton_append]

end Duplex

/-! ### Conversations -/

/-- With `l` to be read the program sends the first request of the list, once the response
to it has come the next one, and at last `bye`, which leaves it in a state of `P`. -/
def Endpoint.Asks (E : Endpoint σ α) (P : σ → Prop) (bye : List α) :
    List (List α × List α) → σ → List α → Prop
  | [], s, l => ∃ t l', E.Turn s l bye t l' ∧ P t
  | e :: es, s, l => ∃ t l', E.Turn s l e.1 t l' ∧ Asks E P bye es t (l' ++ e.2)

/-- With `l` left over, the program responds to each request of the list, and `bye`
leaves it in a state of `P`. -/
def Endpoint.Answers (E : Endpoint σ α) (P : σ → Prop) (bye : List α) :
    List (List α × List α) → σ → List α → Prop
  | [], s, l => ∃ w t l', E.Turn s (l ++ bye) w t l' ∧ P t
  | e :: es, s, l => ∃ t l', E.Turn s (l ++ e.1) e.2 t l' ∧ Answers E P bye es t l'

namespace Duplex

open Machine (run Settles Terminal)

variable {E : Endpoint σ α} {F : Endpoint τ α} {P : σ → Prop} {Q : τ → Prop} {bye : List α}

/-- Where one program asks what the other answers, and both are at rest then, there is
a run to the end. -/
theorem exists_run {es : List (List α × List α)} {s : σ} {q : τ} {l m : List α}
    (hasks : E.Asks P bye es s l) (hanswers : F.Answers Q bye es q m) :
    ∃ as t q' l' m', run (step E F) as ⟨s, q, l, m, [], []⟩ = some ⟨t, q', l', m', [], []⟩ ∧
      P t ∧ Q q' := by
  induction es generalizing s q l m with
  | nil =>
    obtain ⟨t, l', hturn, hP⟩ := hasks
    obtain ⟨w, q', m', hturn', hQ⟩ := hanswers
    obtain ⟨as₁, h₁⟩ := @run_turn_left _ _ _ E F _ _ _ _ _ hturn q m [] []
    obtain ⟨as₂, h₂⟩ := @run_arriveRight _ _ _ E F t q l' m [] bye
    obtain ⟨as₃, h₃⟩ := @run_turn_right _ _ _ E F _ _ _ _ _ hturn' t l' [] []
    obtain ⟨as₄, h₄⟩ := @run_arriveLeft _ _ _ E F t q' l' m' w []
    exact ⟨_, t, q', l' ++ w, m', Machine.run_trans h₁ (Machine.run_trans h₂
      (Machine.run_trans h₃ h₄)), hP, hQ⟩
  | cons e es ih =>
    obtain ⟨t, l', hturn, hasks⟩ := hasks
    obtain ⟨q', m', hturn', hanswers⟩ := hanswers
    obtain ⟨as₁, h₁⟩ := @run_turn_left _ _ _ E F _ _ _ _ _ hturn q m [] []
    obtain ⟨as₂, h₂⟩ := @run_arriveRight _ _ _ E F t q l' m [] e.1
    obtain ⟨as₃, h₃⟩ := @run_turn_right _ _ _ E F _ _ _ _ _ hturn' t l' [] []
    obtain ⟨as₄, h₄⟩ := @run_arriveLeft _ _ _ E F t q' l' m' e.2 []
    obtain ⟨as₅, u, r, l'', m'', h₅, hP, hQ⟩ := ih hasks hanswers
    exact ⟨_, u, r, l'', m'', Machine.run_trans h₁ (Machine.run_trans h₂
      (Machine.run_trans h₃ (Machine.run_trans h₄ h₅))), hP, hQ⟩

/-- Then every run, in whatever order the programs and the network act, goes on to the
same end. -/
theorem settles {es : List (List α × List α)} {s : σ} {q : τ}
    (hP : ∀ t, P t → ∀ l, E.step t l = none) (hQ : ∀ q, Q q → ∀ l, F.step q l = none)
    (hasks : E.Asks P bye es s []) (hanswers : F.Answers Q bye es q []) :
    ∃ n t q' l' m', Settles (step E F) n (start s q) ⟨t, q', l', m', [], []⟩ ∧ P t ∧ Q q' := by
  obtain ⟨as, t, q', l', m', hrun, ht, hq⟩ := exists_run hasks hanswers
  refine ⟨as.length, t, q', l', m', (diamond E F).settles hrun ?_, ht, hq⟩
  intro a
  cases a with
  | left => simp only [step, hP t ht, Option.map_none]
  | right => simp only [step, hQ q' hq, Option.map_none]
  | arriveLeft => rfl
  | arriveRight => rfl

end Duplex

end ReversalBench
