import ReversalBench.Lib.LengthPrefixed

/-! Stop-and-wait exchanges over framed streams. A client sends its chunks one at a
time, each only when the answer to the one before has come and is the one it
expects; the first answer that is missing or different ends the exchange. -/

namespace ReversalBench.StopAndWait

variable {α : Type*} [DecidableEq α] (H : HeaderCode α) (ok : ℕ → Bool)
  (answer : List α → List α) (peer : List α → List α)

/-- The chunks that are sent, and whether all of them are answered as expected. The
list `l` has come from the peer and is not yet read; `peer` is what comes in addition
once a message was sent. -/
def converse : List (List α) → List α → List (List α) × Bool
  | [], _ => ([], true)
  | c :: cs, l =>
    match H.next ok (l ++ peer (H.frame c)) with
    | none => ([c], false)
    | some (p, r) =>
      if p = answer c then (c :: (converse cs r).1, (converse cs r).2) else ([c], false)

variable {H ok answer peer}

theorem converse_cons_of_answer {c : List α} {cs : List (List α)} {l r : List α}
    (h : H.next ok (l ++ peer (H.frame c)) = some (answer c, r)) :
    converse H ok answer peer (c :: cs) l =
      (c :: (converse H ok answer peer cs r).1, (converse H ok answer peer cs r).2) := by
  simp only [converse, h, if_true]

theorem converse_cons_of_ne {c : List α} {cs : List (List α)} {l : List α}
    (h : ∀ r, H.next ok (l ++ peer (H.frame c)) ≠ some (answer c, r)) :
    converse H ok answer peer (c :: cs) l = ([c], false) := by
  rw [converse]
  split
  · rfl
  next p r heq =>
    rw [if_neg]
    rintro rfl
    exact h r heq

/-- Either the first chunk is answered as expected, or the exchange ends with it. -/
theorem converse_cons (c : List α) (cs : List (List α)) (l : List α) :
    (∃ r, H.next ok (l ++ peer (H.frame c)) = some (answer c, r) ∧
      converse H ok answer peer (c :: cs) l =
        (c :: (converse H ok answer peer cs r).1, (converse H ok answer peer cs r).2)) ∨
    ((∀ r, H.next ok (l ++ peer (H.frame c)) ≠ some (answer c, r)) ∧
      converse H ok answer peer (c :: cs) l = ([c], false)) := by
  by_cases h : ∃ r, H.next ok (l ++ peer (H.frame c)) = some (answer c, r)
  · obtain ⟨r, hr⟩ := h
    exact .inl ⟨r, hr, converse_cons_of_answer hr⟩
  · have hne := not_exists.mp h
    exact .inr ⟨hne, converse_cons_of_ne hne⟩

/-- An exchange that succeeds sends every chunk. -/
theorem converse_fst_of_snd {cs : List (List α)} {l : List α}
    (h : (converse H ok answer peer cs l).2 = true) :
    (converse H ok answer peer cs l).1 = cs := by
  induction cs generalizing l with
  | nil => rfl
  | cons c cs ih =>
    rcases @converse_cons α _ H ok answer peer c cs l with ⟨r, -, heq⟩ | ⟨-, heq⟩
    · rw [heq] at h ⊢
      exact congrArg (c :: ·) (ih h)
    · rw [heq] at h
      cases h

/-- The answers are the only messages that matter, so a limit that the expected answers
respect makes no difference. -/
theorem converse_limit {cs : List (List α)} (hok : ∀ c ∈ cs, ok (answer c).length = true)
    (l : List α) :
    converse H ok answer peer cs l = converse H (fun _ => true) answer peer cs l := by
  induction cs generalizing l with
  | nil => rfl
  | cons c cs ih =>
    obtain ⟨hc, hcs⟩ := List.forall_mem_cons.mp hok
    have hiff : ∀ r, H.next ok (l ++ peer (H.frame c)) = some (answer c, r) ↔
        H.next (fun _ => true) (l ++ peer (H.frame c)) = some (answer c, r) := by
      intro r
      simp only [HeaderCode.next_eq_some_iff, hc]
    rcases @converse_cons α _ H ok answer peer c cs l with ⟨r, hr, h⟩ | ⟨hne, h⟩
    · rw [h, converse_cons_of_answer ((hiff r).mp hr), ih hcs]
    · rw [h, converse_cons_of_ne fun r => mt (hiff r).mpr (hne r)]

/-! ### A stream that is fixed beforehand -/

/-- The stream begins with the expected answers, and each of them is one that a header
can declare. -/
def Answered (H : HeaderCode α) (answer : List α → List α) (cs : List (List α)) (l : List α) :
    Prop :=
  (∀ c ∈ cs, (answer c).length < H.bound) ∧ H.encode (cs.map answer) <+: l

omit [DecidableEq α] in
theorem answered_nil (l : List α) : Answered H answer [] l :=
  ⟨fun _ h => absurd h List.not_mem_nil, List.nil_prefix⟩

omit [DecidableEq α] in
theorem answered_cons_of_next {c : List α} {cs : List (List α)} {l r : List α}
    (h : H.next ok l = some (answer c, r)) :
    Answered H answer (c :: cs) l ↔ Answered H answer cs r := by
  obtain ⟨hb, -, rfl⟩ := HeaderCode.next_eq_some_iff.mp h
  simp only [Answered, List.forall_mem_cons, hb, true_and, List.map_cons, HeaderCode.encode_cons,
    List.prefix_append_right_inj]

omit [DecidableEq α] in
theorem next_of_answered_cons {c : List α} {cs : List (List α)} {l : List α}
    (hok : ok (answer c).length = true) (h : Answered H answer (c :: cs) l) :
    ∃ r, H.next ok l = some (answer c, r) := by
  obtain ⟨hb, t, rfl⟩ := h
  refine ⟨H.encode (cs.map answer) ++ t, ?_⟩
  rw [List.map_cons, HeaderCode.encode_cons, List.append_assoc]
  exact HeaderCode.next_frame (hb c List.mem_cons_self) hok

/-- Success is decided by whether the stream begins with the answers. -/
theorem converse_snd_iff {cs : List (List α)} (hok : ∀ c ∈ cs, ok (answer c).length = true)
    (l : List α) :
    (converse H ok answer (fun _ => []) cs l).2 = true ↔ Answered H answer cs l := by
  induction cs generalizing l with
  | nil => exact iff_of_true rfl (answered_nil l)
  | cons c cs ih =>
    obtain ⟨hc, hcs⟩ := List.forall_mem_cons.mp hok
    rcases @converse_cons α _ H ok answer (fun _ => []) c cs l with ⟨r, hr, h⟩ | ⟨hne, h⟩
    · rw [List.append_nil] at hr
      rw [h, ih hcs, answered_cons_of_next hr]
    · rw [h]
      refine iff_of_false Bool.false_ne_true fun hans => ?_
      obtain ⟨r, hr⟩ := next_of_answered_cons hc hans
      exact hne r (by rw [List.append_nil]; exact hr)

/-- An exchange that fails ends with the first chunk whose answer is missing or
different. -/
theorem converse_of_not_answered {cs : List (List α)}
    (hok : ∀ c ∈ cs, ok (answer c).length = true) {l : List α}
    (h : ¬ Answered H answer cs l) :
    ∃ k < cs.length, Answered H answer (cs.take k) l ∧ ¬ Answered H answer (cs.take (k + 1)) l ∧
      (converse H ok answer (fun _ => []) cs l).1 = cs.take (k + 1) := by
  induction cs generalizing l with
  | nil => exact absurd (answered_nil l) h
  | cons c cs ih =>
    obtain ⟨hc, hcs⟩ := List.forall_mem_cons.mp hok
    rcases @converse_cons α _ H ok answer (fun _ => []) c cs l with ⟨r, hr, heq⟩ | ⟨hne, heq⟩
    · rw [List.append_nil] at hr
      obtain ⟨k, hk, hans, hnot, hsent⟩ := ih hcs (mt (answered_cons_of_next hr).mpr h)
      refine ⟨k + 1, Nat.succ_lt_succ hk, ?_, ?_, ?_⟩
      · rw [List.take_succ_cons]
        exact (answered_cons_of_next hr).mpr hans
      · rw [List.take_succ_cons]
        exact mt (answered_cons_of_next hr).mp hnot
      · rw [heq, hsent, List.take_succ_cons]
    · refine ⟨0, Nat.succ_pos _, answered_nil l, fun hans => ?_, by rw [heq]; rfl⟩
      obtain ⟨r, hr⟩ := next_of_answered_cons hc hans
      exact hne r (by rw [List.append_nil]; exact hr)

/-! ### A peer that answers -/

/-- With a peer that answers every chunk a header can announce as expected, the exchange
succeeds unless there is a longer one. -/
theorem converse_honest_iff {cs : List (List α)} (hok : ∀ c ∈ cs, ok (answer c).length = true)
    (honest : ∀ c ∈ cs, (answer c).length < H.bound → peer (H.frame c) = H.frame (answer c)) :
    (converse H ok answer peer cs []).2 = true ↔ ∀ c ∈ cs, (answer c).length < H.bound := by
  induction cs with
  | nil => exact iff_of_true rfl fun _ h => absurd h List.not_mem_nil
  | cons c cs ih =>
    obtain ⟨hc, hcs⟩ := List.forall_mem_cons.mp hok
    obtain ⟨hpeer, hpeers⟩ := List.forall_mem_cons.mp honest
    rw [List.forall_mem_cons]
    by_cases hb : (answer c).length < H.bound
    · have hnext : H.next ok ([] ++ peer (H.frame c)) = some (answer c, []) := by
        rw [List.nil_append, hpeer hb]
        exact HeaderCode.next_eq_some_iff.mpr ⟨hb, hc, (List.append_nil _).symm⟩
      rw [converse_cons_of_answer hnext, ih hcs hpeers, and_iff_right hb]
    · have hne : ∀ r, H.next ok ([] ++ peer (H.frame c)) ≠ some (answer c, r) := by
        intro r hr
        exact hb (HeaderCode.next_eq_some_iff.mp hr).1
      rw [converse_cons_of_ne hne]
      exact iff_of_false Bool.false_ne_true fun h => hb h.1

end ReversalBench.StopAndWait
