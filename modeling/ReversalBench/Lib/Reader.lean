import ReversalBench.Lib.Duplex

/-! Programs that read a stream which can end. On a channel the end of the stream
follows the last element that was written before it. A program that waits for more
than it gets is told so by the end; one that has enough does not notice it. -/

namespace ReversalBench

variable {σ α : Type*}

/-- What came before the end of the stream, which is `none`. -/
def received : List (Option α) → List α
  | some a :: l => a :: received l
  | _ => []

def hasEnd (l : List (Option α)) : Bool := l.any Option.isNone

theorem received_map_some_append (as : List α) (m : List (Option α)) :
    received (as.map some ++ m) = as ++ received m := by
  induction as with
  | nil => rfl
  | cons a as ih => exact congrArg (a :: ·) ih

theorem received_nil : received ([] : List (Option α)) = [] := by
  rw [received]
  rintro a l ⟨⟩

theorem received_none : received [(none : Option α)] = [] := by
  rw [received]
  rintro a l ⟨⟩

@[simp] theorem received_map_some (as : List α) : received (as.map some) = as := by
  have happend := received_map_some_append as []
  rwa [List.append_nil, received_nil, List.append_nil] at happend

@[simp] theorem received_concat_none (as : List α) : received (as.map some ++ [none]) = as := by
  rw [received_map_some_append, received_none, List.append_nil]

theorem length_received_le (l : List (Option α)) : (received l).length ≤ l.length := by
  fun_induction received l with
  | case1 a l ih => exact Nat.succ_le_succ ih
  | case2 => exact Nat.zero_le _

/-- Nothing comes after the end. -/
theorem received_append_of_ended {l : List (Option α)} (h : hasEnd l = true)
    (m : List (Option α)) : received (l ++ m) = received l := by
  fun_induction received l with
  | case1 a l ih =>
    have hl : hasEnd l = true := by simpa [hasEnd] using h
    exact congrArg (a :: ·) (ih hl)
  | case2 l hl =>
    cases l with
    | nil => cases h
    | cons o l =>
      cases o with
      | none => rfl
      | some a => exact absurd rfl (hl a l)

/-- Before the end, more may come. -/
theorem received_append_of_open {l : List (Option α)} (h : hasEnd l = false)
    (m : List (Option α)) : received (l ++ m) = received l ++ received m := by
  fun_induction received l with
  | case1 a l ih =>
    have hl : hasEnd l = false := by simpa [hasEnd] using h
    exact congrArg (a :: ·) (ih hl)
  | case2 l hl =>
    cases l with
    | nil => rfl
    | cons o l =>
      cases o with
      | none => cases h
      | some a => exact absurd rfl (hl a l)

/-- A program that reads a stream which can end and that can end its own. It knows when
what it has received is enough for its next step; the end of the stream always is. -/
structure Reader (σ α : Type*) where
  enough : σ → List α → Bool
  next : σ → List α → Option (Effect σ α × Bool)
  consumed_le : ∀ {s l r}, next s l = some r → r.1.consumed ≤ l.length
  eager : ∀ {s l}, enough s l = true → ∀ m,
    enough s (l ++ m) = true ∧ next s (l ++ m) = next s l

namespace Reader

/-- The elements written, and the end if the program closes its stream. -/
def tokens (l : List α) (closes : Bool) : List (Option α) :=
  l.map some ++ if closes then [none] else []

theorem tokens_open (l : List α) : tokens l false = l.map some := List.append_nil _

theorem tokens_append (l m : List α) (closes : Bool) :
    tokens (l ++ m) closes = tokens l false ++ tokens m closes := by
  simp only [tokens, List.map_append, List.append_assoc, Bool.false_eq_true, if_false,
    List.nil_append]

def step (R : Reader σ α) (s : σ) (l : List (Option α)) : Option (Effect σ (Option α)) :=
  if R.enough s (received l) || hasEnd l then
    (R.next s (received l)).map fun r => ⟨r.1.state, r.1.consumed, tokens r.1.written r.2⟩
  else none

def endpoint (R : Reader σ α) : Endpoint σ (Option α) where
  step := R.step
  consumed_le {s l r} h := by
    unfold step at h
    split at h
    · obtain ⟨r', hr', rfl⟩ := Option.map_eq_some_iff.mp h
      exact (R.consumed_le hr').trans (length_received_le l)
    · cases h
  eager {s l r} h m := by
    unfold step at h ⊢
    split at h
    next hgo =>
      cases hended : hasEnd l with
      | true =>
        have hmore : hasEnd (l ++ m) = true := by
          rw [hasEnd, List.any_append, Bool.or_eq_true]
          exact .inl hended
        rw [received_append_of_ended hended, hmore, Bool.or_true, if_pos rfl, h]
      | false =>
        rw [hended, Bool.or_false] at hgo
        obtain ⟨henough, hnext⟩ := R.eager hgo (received m)
        rw [received_append_of_open hended, henough, Bool.true_or, if_pos rfl, hnext, h]
    · cases h

variable {R : Reader σ α} {s t : σ} {l w : List α} {k : ℕ} {closes : Bool}

/-- A step for which enough has come. -/
theorem step_of_enough (h : R.enough s l = true)
    (hnext : R.next s l = some (⟨t, k, w⟩, closes)) :
    R.endpoint.step s (tokens l false) = some ⟨t, k, tokens w closes⟩ := by
  simp only [endpoint, step, tokens_open, received_map_some, h, Bool.true_or, if_true, hnext,
    Option.map_some]

/-- A step after the end of the stream. -/
theorem step_of_ended (hnext : R.next s l = some (⟨t, k, w⟩, closes)) :
    R.endpoint.step s (tokens l true) = some ⟨t, k, tokens w closes⟩ := by
  have hended : hasEnd (l.map some ++ [none]) = true := by simp [hasEnd]
  simp only [endpoint, step, tokens, if_true, received_concat_none, hended, Bool.or_true, hnext,
    Option.map_some]

theorem drop_tokens (l : List α) (k : ℕ) :
    (tokens l false).drop k = tokens (l.drop k) false := by
  rw [tokens_open, tokens_open, List.map_drop]

/-- A turn that goes on after a step. -/
theorem turn_cons {u : σ} {l₁ w' v : List α} {l' : List (Option α)} (h : R.enough s l = true)
    (hnext : R.next s l = some (⟨t, k, w⟩, false)) (hrest : l.drop k = l₁)
    (hturn : R.endpoint.Turn t (tokens l₁ false) (tokens w' closes) u l') (hv : w ++ w' = v) :
    R.endpoint.Turn s (tokens l false) (tokens v closes) u l' := by
  have hstep := step_of_enough h hnext
  refine .cons hstep ?_ hturn ?_
  · rw [drop_tokens, hrest]
  · rw [← hv, tokens_append]

/-- A turn of one step. -/
theorem turn_single (h : R.enough s l = true)
    (hnext : R.next s l = some (⟨t, k, w⟩, closes)) :
    R.endpoint.Turn s (tokens l false) (tokens w closes) t (tokens (l.drop k) false) :=
  .cons (step_of_enough h hnext) (drop_tokens l k) .refl (List.append_nil _)

/-- The last step, once the stream has ended. -/
theorem turn_ended (hnext : R.next s l = some (⟨t, k, w⟩, closes)) :
    R.endpoint.Turn s (tokens l true) (tokens w closes) t ((tokens l true).drop k) :=
  .cons (step_of_ended hnext) rfl .refl (List.append_nil _)

/-- A program that has no next step stays as it is. -/
theorem step_eq_none (h : ∀ l, R.next s l = none) (l : List (Option α)) :
    R.endpoint.step s l = none := by
  simp only [endpoint, step, h, Option.map_none, ite_self]

end Reader

end ReversalBench
