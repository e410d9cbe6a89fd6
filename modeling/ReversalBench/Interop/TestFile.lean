import ReversalBench.Lib.Machine

/-! The generators of the test file: `generate_test_file` with the size check of its callers,
`generate_test_file_if_not_exists` of the C++ TCP benchmark and `GenerateTestFileIfNotExists` of
the Go benchmark. They check the size of the file that is there, open a new one, write it block
by block and close it. They differ in the integers in which they count, in what they do with an
old and with a partial file, and in whether a stream buffer keeps the last bytes back. -/

namespace ReversalBench

/-- A value of `size_t`. -/
def sizeT (n : ℤ) : ℤ := n % 2 ^ 64

/-- A value of `int64`. -/
def int64 (n : ℤ) : ℤ := n.bmod (2 ^ 64)

/-- The size of the buffer from which all generators write. -/
def bufferSize : ℤ := 1024 * 1024

/-- What the generators do in different ways: what they compute from the target size and the
bytes written so far, whether random bytes are drawn for each block by a call that can fail,
whether the old file is removed first and a partial one afterwards, and whether the file is
written through a stream buffer. -/
structure Generator where
  remaining : (targetSize written : ℤ) → ℤ
  request : (targetSize written : ℤ) → ℤ
  advance : (written n : ℤ) → ℤ
  drawsBlocks : Bool
  removesOld : Bool
  removesPartial : Bool
  buffered : Bool

/-- `generate_test_file`, called after the size check. -/
def Common.generateTestFile : Generator where
  remaining sizeBytes bytesWritten := sizeT (sizeBytes - bytesWritten)
  request sizeBytes bytesWritten := min bufferSize (sizeT (sizeBytes - bytesWritten))
  advance bytesWritten toWrite := sizeT (bytesWritten + toWrite)
  drawsBlocks := false
  removesOld := false
  removesPartial := false
  buffered := true

/-- `generate_test_file_if_not_exists`. -/
def Tcp.generateTestFileIfNotExists : Generator where
  remaining targetSize bytesWritten := sizeT (targetSize - bytesWritten)
  request targetSize bytesWritten := min bufferSize (sizeT (targetSize - bytesWritten))
  advance bytesWritten bytesToWrite := sizeT (bytesWritten + bytesToWrite)
  drawsBlocks := false
  removesOld := true
  removesPartial := true
  buffered := true

/-- `GenerateTestFileIfNotExists`. -/
def GoTcp.generateTestFileIfNotExists : Generator where
  remaining targetSize written := int64 (targetSize - written)
  request targetSize written :=
    if int64 (written + bufferSize) > targetSize then int64 (targetSize - written) else bufferSize
  advance written n := int64 (written + n)
  drawsBlocks := true
  removesOld := false
  removesPartial := false
  buffered := false

namespace Generator

/-- Where a generator is. -/
inductive Pc where
  | check
  | removeOld
  | openFile
  | loop (written : ℤ)
  | removePartial
  | returned
  | failed
  deriving DecidableEq

/-- The size of the file on disk, if there is one. -/
structure State where
  file : Option ℕ
  pc : Pc
  deriving DecidableEq

def start (file : Option ℕ) : State := ⟨file, .check⟩

/-- What happens next, and the number of bytes that are in the file afterwards. -/
inductive Event where
  | check
  | removeOld (ok : Bool)
  | openFile (ok : Bool)
  | noRandom
  | write (stored : ℕ)
  | writeFails (stored : ℕ)
  | removePartial (ok : Bool)
  | close (stored : ℕ)
  deriving DecidableEq

variable (G : Generator) (targetSize : ℕ)

/-- A file does not shrink, and its size is a file offset. -/
def Grows (s : State) (stored : ℕ) : Prop := s.file.getD 0 ≤ stored ∧ stored < 2 ^ 63

instance (s : State) (stored : ℕ) : Decidable (Grows s stored) :=
  inferInstanceAs (Decidable (_ ∧ _))

/-- One step. A write that succeeds has stored all that was asked for, unless the stream buffer
keeps some of it back until the file is closed; one that fails has stored less. Whether
closing succeeds is not looked at. -/
def step (s : State) : Event → Option State
  | .check =>
    match s.pc with
    | .check =>
      if s.file = some targetSize then some { s with pc := .returned }
      else some { s with pc := if G.removesOld ∧ s.file ≠ none then .removeOld else .openFile }
    | _ => none
  | .removeOld ok =>
    match s.pc with
    | .removeOld => some (if ok then ⟨none, .openFile⟩ else { s with pc := .failed })
    | _ => none
  | .openFile ok =>
    match s.pc with
    | .openFile => some (if ok then ⟨some 0, .loop 0⟩ else { s with pc := .failed })
    | _ => none
  | .noRandom =>
    match s.pc with
    | .loop written =>
      if written < targetSize ∧ G.drawsBlocks then some { s with pc := .failed } else none
    | _ => none
  | .write stored =>
    match s.pc with
    | .loop written =>
      let asked := G.request targetSize written
      if written < targetSize ∧ Grows s stored ∧ stored ≤ written + asked ∧
          (G.buffered ∨ stored = written + asked) then
        some ⟨some stored, .loop (G.advance written asked)⟩
      else none
    | _ => none
  | .writeFails stored =>
    match s.pc with
    | .loop written =>
      if written < targetSize ∧ Grows s stored ∧
          stored < written + G.request targetSize written then
        some ⟨some stored, if G.removesPartial then .removePartial else .failed⟩
      else none
    | _ => none
  | .removePartial ok =>
    match s.pc with
    | .removePartial => some ⟨if ok then none else s.file, .failed⟩
    | _ => none
  | .close stored =>
    match s.pc with
    | .loop written =>
      if ¬ written < targetSize ∧ Grows s stored ∧ stored ≤ written ∧
          (G.buffered ∨ stored = written) then
        some ⟨some stored, .returned⟩
      else none
    | _ => none

/-! ### What a run may do wrong -/

/-- The next write asks for no more than what remains, and the difference was computed without
wrapping. -/
def AsksRight (s : State) (_ : Event) : Prop :=
  ∀ written, s.pc = .loop written → written < targetSize →
    G.remaining targetSize written = targetSize - written ∧
    0 < G.request targetSize written ∧ G.request targetSize written ≤ targetSize - written

/-- Closing the file loses some of what the stream buffer had accepted. -/
def LosesTail (s : State) : Event → Prop
  | .close stored => ∃ written, s.pc = .loop written ∧ stored < written
  | _ => False

/-- The sum of the bytes written and the buffer size is no `int64`. -/
def Overflows (s : State) (_ : Event) : Prop :=
  ∃ written, s.pc = .loop written ∧ written < targetSize ∧ 2 ^ 63 ≤ written + bufferSize

/-- After a failure the size check of the next run leads to a new file. -/
def Regenerates (file : Option ℕ) : Prop :=
  file ≠ some targetSize ∧ ∀ t, G.step targetSize (start file) .check = some t → t.pc ≠ .returned

/-- What a run of a generator that has led to the state `t` should satisfy. -/
structure Exact (file : Option ℕ) (es : List Event) (t : State) : Prop where
  asks : Machine.Along (G.step targetSize) (G.AsksRight targetSize) es (start file)
  returned : t.pc = .returned → t.file = some targetSize
  failed : t.pc = .failed → G.Regenerates targetSize t.file

/-- How the numbers of a generator are related to those that they stand for. -/
structure Counts : Prop where
  remaining : ∀ {written : ℤ}, 0 ≤ written → written < targetSize →
    G.remaining targetSize written = targetSize - written
  request_pos : ∀ {written : ℤ}, 0 ≤ written → written < targetSize →
    0 < G.request targetSize written
  request_le : ∀ {written : ℤ}, 0 ≤ written → written < targetSize →
    G.request targetSize written ≤ targetSize - written ∨
      (G.buffered = false ∧ 2 ^ 63 ≤ written + G.request targetSize written)
  advance : ∀ {written n : ℤ}, 0 ≤ written → 0 ≤ n → written + n ≤ targetSize →
    G.advance written n = written + n

variable {G targetSize} {s t : State} {e : Event} {file : Option ℕ} {es : List Event}

/-! ### The steps -/

/-- What a step can do. -/
inductive Moves (G : Generator) (targetSize : ℕ) : State → Event → State → Prop where
  | skip : Moves G targetSize ⟨some targetSize, .check⟩ .check ⟨some targetSize, .returned⟩
  | regenerate {file : Option ℕ} {pc : Pc} (wrong : file ≠ some targetSize)
      (next : pc = .removeOld ∨ pc = .openFile) :
      Moves G targetSize ⟨file, .check⟩ .check ⟨file, pc⟩
  | removed {file : Option ℕ} :
      Moves G targetSize ⟨file, .removeOld⟩ (.removeOld true) ⟨none, .openFile⟩
  | notRemoved {file : Option ℕ} :
      Moves G targetSize ⟨file, .removeOld⟩ (.removeOld false) ⟨file, .failed⟩
  | opened {file : Option ℕ} :
      Moves G targetSize ⟨file, .openFile⟩ (.openFile true) ⟨some 0, .loop 0⟩
  | notOpened {file : Option ℕ} :
      Moves G targetSize ⟨file, .openFile⟩ (.openFile false) ⟨file, .failed⟩
  | noRandom {file : Option ℕ} {written : ℤ} (more : written < targetSize) :
      Moves G targetSize ⟨file, .loop written⟩ .noRandom ⟨file, .failed⟩
  | write {file : Option ℕ} {written : ℤ} {stored : ℕ} (more : written < targetSize)
      (offset : stored < 2 ^ 63) (le : stored ≤ written + G.request targetSize written)
      (all : G.buffered ∨ (stored : ℤ) = written + G.request targetSize written) :
      Moves G targetSize ⟨file, .loop written⟩ (.write stored)
        ⟨some stored, .loop (G.advance written (G.request targetSize written))⟩
  | writeFails {file : Option ℕ} {written : ℤ} {stored : ℕ} {pc : Pc} (more : written < targetSize)
      (lt : stored < written + G.request targetSize written)
      (next : pc = .removePartial ∨ pc = .failed) :
      Moves G targetSize ⟨file, .loop written⟩ (.writeFails stored) ⟨some stored, pc⟩
  | cleaned {file file' : Option ℕ} {ok : Bool} (left : file' = none ∨ file' = file) :
      Moves G targetSize ⟨file, .removePartial⟩ (.removePartial ok) ⟨file', .failed⟩
  | close {file : Option ℕ} {written : ℤ} {stored : ℕ} (done : targetSize ≤ written)
      (le : stored ≤ written) (all : G.buffered ∨ (stored : ℤ) = written) :
      Moves G targetSize ⟨file, .loop written⟩ (.close stored) ⟨some stored, .returned⟩

theorem moves_of_step (ht : G.step targetSize s e = some t) : Moves G targetSize s e t := by
  obtain ⟨file, pc⟩ := s
  cases e <;> cases pc <;> simp only [step, reduceCtorEq] at ht
  case check.check =>
    split at ht
    next hfile =>
      cases ht
      cases hfile
      exact .skip
    next hfile =>
      cases ht
      refine .regenerate hfile ?_
      split
      · exact .inl rfl
      · exact .inr rfl
  case removeOld.removeOld ok =>
    cases ok <;> cases ht
    · exact .notRemoved
    · exact .removed
  case openFile.openFile ok =>
    cases ok <;> cases ht
    · exact .notOpened
    · exact .opened
  case noRandom.loop written =>
    split at ht <;> cases ht
    next hguard => exact .noRandom hguard.1
  case write.loop stored written =>
    split at ht <;> cases ht
    next hguard =>
      obtain ⟨hmore, ⟨-, hoffset⟩, hle, hall⟩ := hguard
      exact .write hmore hoffset hle hall
  case writeFails.loop stored written =>
    split at ht <;> cases ht
    next hguard =>
      obtain ⟨hmore, -, hlt⟩ := hguard
      refine .writeFails hmore hlt ?_
      split
      · exact .inl rfl
      · exact .inr rfl
  case removePartial.removePartial ok =>
    cases ht
    refine .cleaned ?_
    cases ok
    · exact .inr rfl
    · exact .inl rfl
  case close.loop stored written =>
    split at ht <;> cases ht
    next hguard =>
      obtain ⟨hdone, -, hle, hall⟩ := hguard
      exact .close (not_lt.mp hdone) hle hall

/-! ### Every run ends -/

/-- In the loop the file holds what was written, but for what the stream buffer keeps back. -/
def InLoop (G : Generator) (targetSize : ℕ) (s : State) : Prop :=
  ∀ written, s.pc = .loop written → 0 ≤ written ∧ written ≤ targetSize ∧
    ∃ n : ℕ, s.file = some n ∧ n ≤ written ∧ n < 2 ^ 63 ∧ (G.buffered ∨ n = written)

/-- A bound for the number of steps to come. -/
def rank (targetSize : ℕ) (s : State) : ℕ :=
  match s.pc with
  | .check => targetSize + 5
  | .removeOld => targetSize + 4
  | .openFile => targetSize + 3
  | .loop written => (targetSize - written).toNat + 2
  | .removePartial => 1
  | .returned | .failed => 0

theorem inLoop_start (G : Generator) (targetSize : ℕ) (file : Option ℕ) :
    InLoop G targetSize (start file) := nofun

/-- A write that succeeds is one that did not ask for too much. -/
theorem Counts.write (h : G.Counts targetSize) {written : ℤ} {stored : ℕ} (hpos : 0 ≤ written)
    (hlt : written < targetSize) (hstored : stored < 2 ^ 63)
    (hall : G.buffered ∨ (stored : ℤ) = written + G.request targetSize written) :
    G.advance written (G.request targetSize written) =
        written + G.request targetSize written ∧
      0 < G.request targetSize written ∧
      written + G.request targetSize written ≤ targetSize := by
  have hrequest := h.request_pos hpos hlt
  have hle : written + G.request targetSize written ≤ targetSize := by
    rcases h.request_le hpos hlt with hle | ⟨hbuffered, hlarge⟩
    · omega
    · rcases hall with hall | hall
      · rw [hbuffered] at hall
        cases hall
      · omega
  exact ⟨h.advance hpos hrequest.le hle, hrequest, hle⟩

theorem inLoop_step (h : G.Counts targetSize) (hs : InLoop G targetSize s)
    (ht : G.step targetSize s e = some t) :
    InLoop G targetSize t ∧ rank targetSize t < rank targetSize s := by
  cases moves_of_step ht with
  | skip => exact ⟨nofun, Nat.succ_pos _⟩
  | regenerate wrong next =>
    rcases next with rfl | rfl <;> exact ⟨nofun, by simp [rank]⟩
  | removed => exact ⟨nofun, Nat.lt_succ_self _⟩
  | notRemoved => exact ⟨nofun, Nat.succ_pos _⟩
  | opened =>
    refine ⟨fun written hw => ?_, by simp [rank]⟩
    cases hw
    exact ⟨le_rfl, Int.natCast_nonneg _, 0, rfl, by simp⟩
  | notOpened => exact ⟨nofun, Nat.succ_pos _⟩
  | noRandom more => exact ⟨nofun, Nat.succ_pos _⟩
  | @write file written stored more offset le all =>
    obtain ⟨hpos, -, -⟩ := hs written rfl
    obtain ⟨hadvance, hrequest, hnext⟩ := h.write hpos more offset all
    rw [hadvance]
    constructor
    · intro written' hw
      cases hw
      exact ⟨by omega, hnext, stored, rfl, le, offset, all⟩
    · simp only [rank]
      omega
  | writeFails more lt next =>
    rcases next with rfl | rfl
    · exact ⟨nofun, Nat.succ_lt_succ (Nat.succ_pos _)⟩
    · exact ⟨nofun, Nat.succ_pos _⟩
  | cleaned left => exact ⟨nofun, Nat.succ_pos _⟩
  | close done le all => exact ⟨nofun, Nat.succ_pos _⟩

/-- A generator that has neither returned nor failed can go on. -/
theorem exists_step (h : G.Counts targetSize) (hs : InLoop G targetSize s) :
    s.pc = .returned ∨ s.pc = .failed ∨ ∃ e t, G.step targetSize s e = some t := by
  obtain ⟨file, pc⟩ := s
  cases pc with
  | check =>
    refine .inr (.inr ⟨.check, ?_⟩)
    simp only [step]
    split <;> exact ⟨_, rfl⟩
  | removeOld => exact .inr (.inr ⟨.removeOld true, _, rfl⟩)
  | openFile => exact .inr (.inr ⟨.openFile true, _, rfl⟩)
  | loop written =>
    obtain ⟨hpos, hle, n, rfl, hn, hoffset, hall⟩ := hs written rfl
    by_cases hmore : written < targetSize
    · have hrequest := h.request_pos hpos hmore
      refine .inr (.inr ⟨.writeFails n, _, if_pos ⟨hmore, ⟨le_rfl, hoffset⟩, ?_⟩⟩)
      omega
    · exact .inr (.inr ⟨.close n, _, if_pos ⟨hmore, ⟨le_rfl, hoffset⟩, hn, hall⟩⟩)
  | removePartial => exact .inr (.inr ⟨.removePartial true, _, rfl⟩)
  | returned => exact .inl rfl
  | failed => exact .inr (.inl rfl)

open Machine (run Along Sometime along_concat sometime_concat)

theorem inLoop_run (h : G.Counts targetSize)
    (ht : run (G.step targetSize) es (start file) = some t) : InLoop G targetSize t :=
  Machine.invariant_run (P := InLoop G targetSize) (fun _ _ _ hs ht => (inLoop_step h hs ht).1)
    (inLoop_start G targetSize file) ht

theorem rank_run (h : G.Counts targetSize)
    (ht : run (G.step targetSize) es (start file) = some t) :
    es.length + rank targetSize t ≤ targetSize + 5 := by
  induction es using List.reverseRecOn generalizing t with
  | nil =>
    cases ht
    simp [rank, start]
  | append_singleton es e ih =>
    obtain ⟨s, hs, hstep⟩ := Machine.run_concat_eq_some.mp ht
    obtain ⟨-, hlt⟩ := inLoop_step h (inLoop_run h hs) hstep
    have hrank := ih hs
    rw [List.length_append, List.length_singleton]
    omega

/-- A run is short, and can be continued until the generator returns or fails. -/
theorem terminates (h : G.Counts targetSize)
    (ht : run (G.step targetSize) es (start file) = some t) :
    es.length ≤ targetSize + 5 ∧
      (t.pc = .returned ∨ t.pc = .failed ∨ ∃ e u, G.step targetSize t e = some u) :=
  ⟨(Nat.le_add_right _ _).trans (rank_run h ht), exists_step h (inLoop_run h ht)⟩

/-! ### What a run leaves -/

/-- The file that a generator leaves has the target size exactly when it returns. -/
def Inv (targetSize : ℕ) (s : State) : Prop :=
  match s.pc with
  | .check | .loop _ => True
  | .removeOld | .openFile | .removePartial | .failed => s.file ≠ some targetSize
  | .returned => s.file = some targetSize

theorem inv_step (hs : InLoop G targetSize s) (hinv : Inv targetSize s)
    (ht : G.step targetSize s e = some t) (hasks : G.AsksRight targetSize s e)
    (hlost : ¬LosesTail s e) : Inv targetSize t := by
  cases moves_of_step ht with
  | skip => rfl
  | regenerate wrong next => rcases next with rfl | rfl <;> exact wrong
  | removed => exact (Option.some_ne_none targetSize).symm
  | notRemoved => exact hinv
  | opened => trivial
  | notOpened => exact hinv
  | noRandom more =>
    obtain ⟨-, -, n, rfl, hn, -⟩ := hs _ rfl
    intro hfile
    cases hfile
    omega
  | write more offset le all => trivial
  | @writeFails file written stored pc more lt next =>
    obtain ⟨-, -, hle⟩ := hasks written rfl more
    have hshort : some stored ≠ some targetSize := by
      intro hfile
      cases hfile
      omega
    rcases next with rfl | rfl <;> exact hshort
  | cleaned left =>
    rcases left with rfl | rfl
    · exact (Option.some_ne_none targetSize).symm
    · exact hinv
  | @close file written stored done le all =>
    obtain ⟨-, hle, -⟩ := hs written rfl
    have hkept : ¬(stored : ℤ) < written := fun hlt => hlost ⟨written, rfl, hlt⟩
    have hall : stored = targetSize := by omega
    exact congrArg some hall

/-- What was lost is missing in the file, and the generator returns all the same. -/
theorem returned_of_losesTail (hs : InLoop G targetSize s) (ht : G.step targetSize s e = some t)
    (hlost : LosesTail s e) : t.pc = .returned ∧ t.file ≠ some targetSize := by
  cases moves_of_step ht with
  | @close file written stored done le all =>
    obtain ⟨written', hw, hlt⟩ := hlost
    cases hw
    obtain ⟨-, hle, -⟩ := hs written rfl
    refine ⟨rfl, fun hfile => ?_⟩
    cases hfile
    omega
  | _ => exact hlost.elim

theorem regenerates_of_ne (h : file ≠ some targetSize) : G.Regenerates targetSize file := by
  refine ⟨h, fun t ht => ?_⟩
  cases moves_of_step ht with
  | skip => exact absurd rfl h
  | regenerate wrong next => rcases next with rfl | rfl <;> nofun

/-! ### Whole runs -/

theorem inv_run (h : G.Counts targetSize) (ht : run (G.step targetSize) es (start file) = some t)
    (hasks : Along (G.step targetSize) (G.AsksRight targetSize) es (start file))
    (hkept : ¬Sometime (G.step targetSize) LosesTail es (start file)) : Inv targetSize t := by
  induction es using List.reverseRecOn generalizing t with
  | nil =>
    cases ht
    trivial
  | append_singleton es e ih =>
    obtain ⟨s, hs, hstep⟩ := Machine.run_concat_eq_some.mp ht
    rw [along_concat hs] at hasks
    rw [sometime_concat hs, not_or] at hkept
    exact inv_step (inLoop_run h hs) (ih hs hasks.1 hkept.1) hstep hasks.2 hkept.2

/-- Nothing happens after the generator has returned. -/
theorem lost_run (h : G.Counts targetSize) (ht : run (G.step targetSize) es (start file) = some t)
    (hlost : Sometime (G.step targetSize) LosesTail es (start file)) :
    t.pc = .returned ∧ t.file ≠ some targetSize := by
  induction es using List.reverseRecOn generalizing t with
  | nil => exact hlost.elim
  | append_singleton es e ih =>
    obtain ⟨s, hs, hstep⟩ := Machine.run_concat_eq_some.mp ht
    rw [sometime_concat hs] at hlost
    rcases hlost with hbefore | hlast
    · obtain ⟨hpc, -⟩ := ih hs hbefore
      obtain ⟨_, _⟩ := s
      cases hpc
      cases moves_of_step hstep
    · exact returned_of_losesTail (inLoop_run h hs) hstep hlast

/-- A run is exact unless it asks for too much or loses what a buffer had accepted. -/
theorem exact_iff (h : G.Counts targetSize)
    (ht : run (G.step targetSize) es (start file) = some t) :
    G.Exact targetSize file es t ↔
      Along (G.step targetSize) (G.AsksRight targetSize) es (start file) ∧
        ¬Sometime (G.step targetSize) LosesTail es (start file) := by
  constructor
  · intro hexact
    refine ⟨hexact.asks, fun hlost => ?_⟩
    obtain ⟨hpc, hfile⟩ := lost_run h ht hlost
    exact hfile (hexact.returned hpc)
  · rintro ⟨hasks, hkept⟩
    have hinv := inv_run h ht hasks hkept
    refine ⟨hasks, fun hpc => ?_, fun hpc => regenerates_of_ne ?_⟩
    · simpa only [Inv, hpc] using hinv
    · simpa only [Inv, hpc] using hinv

end Generator

end ReversalBench
