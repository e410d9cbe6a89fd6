import ReversalBench.Lib.ByteOrder
import Mathlib.Data.List.Basic
import Mathlib.Data.List.TakeWhile
import Mathlib.Algebra.Order.Group.Nat

/-! Length-prefixed framing. A frame is a header of fixed width that declares a
length, followed by that many elements. A stream is parsed frame by frame until
a frame is incomplete or declares a length that is not accepted; what was parsed
is then the longest such sequence, and the encoder and the parser are inverse to
each other. -/

namespace ReversalBench

/-- A fixed-width code of the lengths below a bound that uses every header. -/
structure HeaderCode (α : Type*) where
  width : ℕ
  bound : ℕ
  enc : ℕ → List α
  dec : List α → ℕ
  width_pos : 0 < width
  length_enc : ∀ n, (enc n).length = width
  dec_enc : ∀ {n}, n < bound → dec (enc n) = n
  dec_lt : ∀ {l : List α}, l.length = width → dec l < bound
  enc_dec : ∀ {l : List α}, l.length = width → enc (dec l) = l

namespace HeaderCode

variable {α : Type*} (H : HeaderCode α)

/-- One frame. -/
def frame (p : List α) : List α := H.enc p.length ++ p

/-- The frames of a list of payloads, one after the other. -/
def encode (ps : List (List α)) : List α := (ps.map H.frame).flatten

/-- The length the next header of a stream declares, if the header is complete. -/
def declared (l : List α) : Option ℕ :=
  if H.width ≤ l.length then some (H.dec (l.take H.width)) else none

/-- The next frame and what follows it, if the frame is complete and its declared
length is accepted. -/
def next (ok : ℕ → Bool) (l : List α) : Option (List α × List α) :=
  (H.declared l).bind fun d =>
    if ok d ∧ d ≤ (l.drop H.width).length then
      some ((l.drop H.width).take d, (l.drop H.width).drop d)
    else none

@[simp] theorem length_frame (p : List α) : (H.frame p).length = H.width + p.length := by
  simp [frame, H.length_enc]

@[simp] theorem encode_nil : H.encode [] = [] := rfl

@[simp] theorem encode_cons (p : List α) (ps : List (List α)) :
    H.encode (p :: ps) = H.frame p ++ H.encode ps := rfl

@[simp] theorem encode_append (ps qs : List (List α)) :
    H.encode (ps ++ qs) = H.encode ps ++ H.encode qs := by
  simp [encode]

theorem encode_take_add_one {ps : List (List α)} {k : ℕ} (h : k < ps.length) :
    H.encode (ps.take (k + 1)) = H.encode (ps.take k) ++ H.frame ps[k] := by
  rw [List.take_add_one, List.getElem?_eq_getElem h, encode_append]
  simp

theorem encode_prefix {ps qs : List (List α)} (h : ps <+: qs) : H.encode ps <+: H.encode qs := by
  obtain ⟨rs, rfl⟩ := h
  exact ⟨H.encode rs, (H.encode_append ps rs).symm⟩

/-! ### One frame -/

variable {H} {ok : ℕ → Bool}

theorem declared_eq_none_iff {l : List α} : H.declared l = none ↔ l.length < H.width := by
  simp [declared]

theorem declared_eq_some_iff {l : List α} {d : ℕ} :
    H.declared l = some d ↔ H.width ≤ l.length ∧ H.dec (l.take H.width) = d := by
  simp [declared]

theorem declared_lt {l : List α} {d : ℕ} (h : H.declared l = some d) : d < H.bound := by
  obtain ⟨hw, rfl⟩ := declared_eq_some_iff.mp h
  exact H.dec_lt (by simpa using hw)

theorem declared_frame {p r : List α} (hp : p.length < H.bound) :
    H.declared (H.frame p ++ r) = some p.length := by
  rw [declared_eq_some_iff]
  refine ⟨by simp only [List.length_append, length_frame]; omega, ?_⟩
  have htake : (H.frame p ++ r).take H.width = H.enc p.length := by
    rw [frame, List.append_assoc, List.take_left' (H.length_enc _)]
  rw [htake, H.dec_enc hp]

theorem drop_frame (p r : List α) : (H.frame p ++ r).drop H.width = p ++ r := by
  rw [frame, List.append_assoc, List.drop_left' (H.length_enc _)]

theorem next_eq_some_iff {l p r : List α} :
    H.next ok l = some (p, r) ↔
      p.length < H.bound ∧ ok p.length = true ∧ l = H.frame p ++ r := by
  constructor
  · intro h
    obtain ⟨d, hd, h⟩ := Option.bind_eq_some_iff.mp h
    have hlt := declared_lt hd
    obtain ⟨hw, hdec⟩ := declared_eq_some_iff.mp hd
    split_ifs at h with hok
    cases h
    have hlen : ((l.drop H.width).take d).length = d := by
      rw [List.length_take]
      exact Nat.min_eq_left hok.2
    refine ⟨by rwa [hlen], by rw [hlen]; exact hok.1, ?_⟩
    have henc : H.enc d = l.take H.width := by
      rw [← hdec, H.enc_dec (by simpa using hw)]
    rw [frame, hlen, henc, List.append_assoc, List.take_append_drop, List.take_append_drop]
  · rintro ⟨hb, hok, rfl⟩
    rw [next, declared_frame hb, Option.bind_some, drop_frame]
    simp [hok]

theorem next_frame {p r : List α} (hb : p.length < H.bound) (hok : ok p.length = true) :
    H.next ok (H.frame p ++ r) = some (p, r) :=
  next_eq_some_iff.mpr ⟨hb, hok, rfl⟩

theorem next_shortens {l p r : List α} (h : H.next ok l = some (p, r)) : r.length < l.length := by
  obtain ⟨-, -, rfl⟩ := next_eq_some_iff.mp h
  have := H.width_pos
  simp only [List.length_append, length_frame]
  omega

/-- Why there is no next frame: the header is incomplete, it declares a length that
is not accepted, or the body is incomplete. -/
theorem next_eq_none_iff {l : List α} :
    H.next ok l = none ↔ H.declared l = none ∨
      ∃ d, H.declared l = some d ∧ (ok d = false ∨ (l.drop H.width).length < d) := by
  unfold next
  cases hd : H.declared l with
  | none => simp
  | some d =>
    simp only [Option.bind_some, reduceCtorEq, false_or, Option.some.injEq, exists_eq_left',
      ite_eq_right_iff, imp_false, not_and_or, not_le, Bool.not_eq_true]

variable (H ok)

/-- The payloads of the longest sequence of accepted complete frames at the start of
a stream, and what follows them. -/
def parse (l : List α) : List (List α) × List α :=
  match _h : H.next ok l with
  | none => ([], l)
  | some (p, r) => (p :: (parse r).1, (parse r).2)
termination_by l.length
decreasing_by all_goals exact next_shortens ‹_›

variable {H ok}

theorem parse_of_none {l : List α} (h : H.next ok l = none) : H.parse ok l = ([], l) := by
  rw [parse]
  split
  · rfl
  · rename_i h'
    rw [h] at h'
    cases h'

theorem parse_of_some {l p r : List α} (h : H.next ok l = some (p, r)) :
    H.parse ok l = (p :: (H.parse ok r).1, (H.parse ok r).2) := by
  rw [parse]
  split
  · rename_i h'
    rw [h] at h'
    cases h'
  · rename_i h'
    rw [h] at h'
    cases h'
    rfl

/-- Induction along the frames of a stream. -/
theorem parse_induction (H : HeaderCode α) (ok : ℕ → Bool) {P : List α → Prop}
    (stop : ∀ l, H.next ok l = none → P l)
    (frame : ∀ l p r, H.next ok l = some (p, r) → P r → P l) (l : List α) : P l := by
  induction h : l.length using Nat.strong_induction_on generalizing l with
  | h n ih =>
    cases hn : H.next ok l with
    | none => exact stop l hn
    | some pr => exact frame l pr.1 pr.2 hn (ih _ (h ▸ next_shortens hn) pr.2 rfl)

/-! ### Whole streams -/

/-- The parse of a stream is the one way to read it as accepted frames followed by
something that does not start with one. -/
theorem parse_eq_iff {l rest : List α} {ps : List (List α)} :
    H.parse ok l = (ps, rest) ↔
      l = H.encode ps ++ rest ∧ (∀ p ∈ ps, p.length < H.bound ∧ ok p.length = true) ∧
        H.next ok rest = none := by
  induction ps generalizing l with
  | nil =>
    constructor
    · intro h
      cases hn : H.next ok l with
      | none => rw [parse_of_none hn] at h; cases h; simp [hn]
      | some pr => rw [parse_of_some (p := pr.1) (r := pr.2) hn] at h; cases h
    · rintro ⟨rfl, -, hn⟩
      exact parse_of_none hn
  | cons p ps ih =>
    constructor
    · intro h
      cases hn : H.next ok l with
      | none => rw [parse_of_none hn] at h; cases h
      | some pr =>
        obtain ⟨q, r⟩ := pr
        obtain ⟨hb, hok, rfl⟩ := next_eq_some_iff.mp hn
        rw [parse_of_some hn] at h
        cases h
        obtain ⟨hr, hall, hstop⟩ := ih.mp rfl
        refine ⟨by rw [encode_cons, List.append_assoc, ← hr], ?_, hstop⟩
        exact List.forall_mem_cons.mpr ⟨⟨hb, hok⟩, hall⟩
    · rintro ⟨rfl, hall, hstop⟩
      obtain ⟨⟨hb, hok⟩, hall⟩ := List.forall_mem_cons.mp hall
      rw [encode_cons, List.append_assoc, parse_of_some (next_frame hb hok),
        ih.mpr ⟨rfl, hall, hstop⟩]

theorem parse_encode {ps : List (List α)}
    (h : ∀ p ∈ ps, p.length < H.bound ∧ ok p.length = true) :
    H.parse ok (H.encode ps) = (ps, []) := by
  have hnone : H.next ok ([] : List α) = none :=
    next_eq_none_iff.mpr (.inl (declared_eq_none_iff.mpr H.width_pos))
  exact parse_eq_iff.mpr ⟨by simp, h, hnone⟩

/-! ### Parsing with a limit -/

/-- What is left of a stream without an accepted frame by a reader that gives up after
a header it does not accept, and otherwise waits for the rest of the frame. -/
def unread (H : HeaderCode α) (ok : ℕ → Bool) (l : List α) : List α :=
  match H.declared l with
  | none => []
  | some d => if ok d then [] else l.drop H.width

/-- The lengths all headers of a stream declare when it is parsed without a limit,
the header of an incomplete last frame included. -/
def headers (H : HeaderCode α) (l : List α) : List ℕ :=
  (H.parse (fun _ => true) l).1.map List.length ++
    (H.declared (H.parse (fun _ => true) l).2).toList

theorem next_of_true {l : List α} {d : ℕ} (hd : H.declared l = some d) :
    H.next ok l = if ok d then H.next (fun _ => true) l else none := by
  simp only [next, hd, Option.bind_some]
  cases hok : ok d <;> simp

theorem next_none_of_true {l : List α} (h : H.next (fun _ => true) l = none) :
    H.next ok l = none := by
  rw [next_eq_none_iff] at h ⊢
  exact h.imp_right fun ⟨d, hd, h⟩ => ⟨d, hd, .inr (h.resolve_left (by simp))⟩

/-- A limit cuts the parse at the first frame that exceeds it. -/
theorem parse_fst_eq_takeWhile (l : List α) :
    (H.parse ok l).1 = (H.parse (fun _ => true) l).1.takeWhile fun p => ok p.length := by
  induction l using parse_induction H (fun _ => true) with
  | stop l hn =>
    rw [parse_of_none hn, parse_of_none (next_none_of_true hn)]
    rfl
  | frame l p r hn ih =>
    obtain ⟨hb, -, rfl⟩ := next_eq_some_iff.mp hn
    rw [parse_of_some hn, List.takeWhile_cons]
    cases hok : ok p.length with
    | false =>
      have hnone : H.next ok (H.frame p ++ r) = none := by
        rw [next_of_true (declared_frame hb), hok]
        rfl
      simp [parse_of_none hnone]
    | true => simp [parse_of_some (next_frame (r := r) hb hok), ih]

theorem parse_fst_prefix (l : List α) : (H.parse ok l).1 <+: (H.parse (fun _ => true) l).1 := by
  rw [parse_fst_eq_takeWhile]
  exact List.takeWhile_prefix _

/-- A limit no header exceeds changes nothing. -/
theorem parse_fst_of_headers {l : List α} (h : ∀ d ∈ H.headers l, ok d = true) :
    (H.parse ok l).1 = (H.parse (fun _ => true) l).1 := by
  rw [parse_fst_eq_takeWhile, List.takeWhile_eq_self_iff]
  intro p hp
  exact h p.length (List.mem_append_left _ (List.mem_map_of_mem hp))

/-! ### Receivers -/

section Receivers

variable {σ ε : Type*}

/-- A receiver that takes the accepted frames off a stream one at a time and fails where
there is none. -/
structure Receives (H : HeaderCode α) (ok : ℕ → Bool) (recv : σ → Except ε (List α) × σ)
    (rest : σ → List α) : Prop where
  frame : ∀ {s p r}, H.next ok (rest s) = some (p, r) → ∃ t, recv s = (.ok p, t) ∧ rest t = r
  stop : ∀ {s}, H.next ok (rest s) = none →
    ∃ e t, recv s = (.error e, t) ∧ rest t = H.unread ok (rest s)

/-- At most `n` messages, up to the first failure. -/
def receiveAll (recv : σ → Except ε (List α) × σ) : ℕ → σ → List (List α) × σ
  | 0, s => ([], s)
  | n + 1, s =>
    match recv s with
    | (.error _, t) => ([], t)
    | (.ok p, t) => (p :: (receiveAll recv n t).1, (receiveAll recv n t).2)

variable {recv : σ → Except ε (List α) × σ} {rest : σ → List α}

theorem unread_nil : H.unread ok ([] : List α) = [] := by
  have hd : H.declared ([] : List α) = none := declared_eq_none_iff.mpr H.width_pos
  rw [unread, hd]

/-- What was encoded is received, and however long the receiver goes on, nothing else. -/
theorem receiveAll_encode (hr : H.Receives ok recv rest) {ps : List (List α)}
    (hps : ∀ p ∈ ps, p.length < H.bound ∧ ok p.length = true) :
    ∀ {n s}, ps.length ≤ n → rest s = H.encode ps →
      ∃ t, receiveAll recv n s = (ps, t) ∧ rest t = [] := by
  induction ps with
  | nil =>
    intro n s _ hs
    cases n with
    | zero => exact ⟨s, rfl, hs⟩
    | succ n =>
      have hnone : H.next ok (rest s) = none :=
        next_eq_none_iff.mpr (.inl (declared_eq_none_iff.mpr (by rw [hs]; exact H.width_pos)))
      obtain ⟨e, t, ht, hrest⟩ := hr.stop hnone
      refine ⟨t, by rw [receiveAll, ht], ?_⟩
      rw [hrest, hs]
      exact unread_nil
  | cons p ps ih =>
    intro n s hn hs
    obtain ⟨⟨hb, hok⟩, hps⟩ := List.forall_mem_cons.mp hps
    obtain ⟨m, rfl⟩ : ∃ m, n = m + 1 := ⟨n - 1, by simp at hn; omega⟩
    obtain ⟨t, ht, hrest⟩ := hr.frame (by rw [hs]; exact next_frame hb hok)
    obtain ⟨u, hu, hend⟩ := ih hps (Nat.le_of_succ_le_succ hn) hrest
    exact ⟨u, by rw [receiveAll, ht]; simp only [hu], hend⟩

end Receivers

/-! ### Big-endian headers -/

/-- Lengths as `k` bytes in network order. -/
def bigEndian (k : ℕ) (hk : 0 < k) : HeaderCode UInt8 where
  width := k
  bound := 256 ^ k
  enc n := ByteOrder.big.store k n
  dec bs := ByteOrder.big.load bs
  width_pos := hk
  length_enc n := ByteOrder.length_store _ k n
  dec_enc h := by rw [ByteOrder.load_store, Nat.mod_eq_of_lt h]
  dec_lt h := by subst h; exact ByteOrder.load_lt _ _
  enc_dec h := by subst h; exact ByteOrder.store_load _ _

end HeaderCode

end ReversalBench
