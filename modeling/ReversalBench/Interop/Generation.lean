import ReversalBench.Interop.TestFile

/-! The sizes of the test files. All generators end, and their differences and sums are what they
stand for, but for one sum of the Go generator that overflows in front of the last block of
the largest files. The generators in C++ do not look at whether the file could be closed,
when a stream buffer still held its last bytes. -/

namespace ReversalBench

open Generator (Counts InLoop AsksRight LosesTail Overflows start inLoop_start inLoop_step
  moves_of_step terminates exact_iff)
open Machine (run Along Sometime along_of_invariant along_iff_not_sometime)

theorem sizeT_eq {n : ℤ} (hpos : 0 ≤ n) (hlt : n < 2 ^ 64) : sizeT n = n :=
  Int.emod_eq_of_lt hpos hlt

theorem int64_eq {n : ℤ} (hle : -2 ^ 63 ≤ n) (hlt : n < 2 ^ 63) : int64 n = n :=
  Int.bmod_eq_of_le (by omega) (by omega)

/-- A sum that is too large by less than 2^63 becomes negative. -/
theorem int64_neg {n : ℤ} (hle : 2 ^ 63 ≤ n) (hlt : n < 2 ^ 64) : int64 n < 0 := by
  rw [int64, ← Int.sub_bmod_right, Int.bmod_eq_of_le] <;> omega

variable {targetSize : ℕ} {file : Option ℕ} {es : List Generator.Event} {t : Generator.State}

theorem Common.counts_generateTestFile (h : targetSize < 2 ^ 64) :
    Counts Common.generateTestFile targetSize := by
  have hremaining : ∀ {written : ℤ}, 0 ≤ written → written < targetSize →
      sizeT (targetSize - written) = targetSize - written :=
    fun hpos hlt => sizeT_eq (by omega) (by omega)
  constructor
  · exact hremaining
  · intro written hpos hlt
    simp only [Common.generateTestFile, hremaining hpos hlt, bufferSize]
    omega
  · intro written hpos hlt
    simp only [Common.generateTestFile, hremaining hpos hlt]
    exact .inl (min_le_right _ _)
  · intro written n hpos hn hle
    exact sizeT_eq (by omega) (by omega)

theorem Tcp.counts_generateTestFileIfNotExists (h : targetSize < 2 ^ 64) :
    Counts Tcp.generateTestFileIfNotExists targetSize := by
  obtain ⟨hremaining, hpos, hle, hadvance⟩ := Common.counts_generateTestFile h
  exact ⟨hremaining, hpos, hle, hadvance⟩

namespace GoTcp

/-- The comparison is right as long as the sum is an `int64`. -/
theorem request_of_lt {written : ℤ} (h : targetSize < 2 ^ 63) (hpos : 0 ≤ written)
    (hlt : written < targetSize) (hsum : written + bufferSize < 2 ^ 63) :
    generateTestFileIfNotExists.request targetSize written =
      min (targetSize - written) bufferSize := by
  simp only [generateTestFileIfNotExists]
  rw [int64_eq (by simp only [bufferSize]; omega) hsum, int64_eq (by omega) (by omega)]
  split <;> omega

/-- Otherwise the generator asks for a whole buffer. -/
theorem request_of_ge {written : ℤ} (h : targetSize < 2 ^ 63) (hlt : written < targetSize)
    (hsum : 2 ^ 63 ≤ written + bufferSize) :
    generateTestFileIfNotExists.request targetSize written = bufferSize := by
  have hneg := int64_neg hsum (by simp only [bufferSize]; omega)
  simp only [generateTestFileIfNotExists]
  rw [if_neg]
  omega

theorem counts_generateTestFileIfNotExists (h : targetSize < 2 ^ 63) :
    Counts generateTestFileIfNotExists targetSize := by
  have hbuffer : 0 < bufferSize := by decide
  constructor
  · intro written hpos hlt
    exact int64_eq (by omega) (by omega)
  · intro written hpos hlt
    rcases lt_or_ge (written + bufferSize) (2 ^ 63) with hsum | hsum
    · rw [request_of_lt h hpos hlt hsum]
      omega
    · rw [request_of_ge h hlt hsum]
      exact hbuffer
  · intro written hpos hlt
    rcases lt_or_ge (written + bufferSize) (2 ^ 63) with hsum | hsum
    · rw [request_of_lt h hpos hlt hsum]
      exact .inl (min_le_left _ _)
    · rw [request_of_ge h hlt hsum]
      exact .inr ⟨rfl, hsum⟩
  · intro written n hpos hn hle
    exact int64_eq (by omega) (by omega)

/-- What is asked for is right unless the sum overflows. -/
theorem asksRight_iff (h : targetSize < 2 ^ 63) {s : Generator.State} {e : Generator.Event}
    (hs : InLoop generateTestFileIfNotExists targetSize s) :
    AsksRight generateTestFileIfNotExists targetSize s e ↔ ¬Overflows targetSize s e := by
  constructor
  · rintro hasks ⟨written, hpc, hlt, hsum⟩
    obtain ⟨-, -, hle⟩ := hasks written hpc hlt
    rw [request_of_ge h hlt hsum] at hle
    omega
  · intro hnot written hpc hlt
    obtain ⟨hpos, -⟩ := hs written hpc
    have hsum : written + bufferSize < 2 ^ 63 := by
      by_contra hge
      exact hnot ⟨written, hpc, hlt, not_lt.mp hge⟩
    have hcounts := counts_generateTestFileIfNotExists h
    refine ⟨hcounts.remaining hpos hlt, hcounts.request_pos hpos hlt, ?_⟩
    rw [request_of_lt h hpos hlt hsum]
    exact min_le_left _ _

/-- No target size that a file system offers is that large. -/
theorem not_overflows (h : targetSize + bufferSize ≤ 2 ^ 63) (s : Generator.State)
    (e : Generator.Event) : ¬Overflows targetSize s e := by
  rintro ⟨written, -, hlt, hsum⟩
  omega

end GoTcp

/-- The generators in C++ always ask for the right number of bytes. -/
theorem asksRight_of_buffered {G : Generator} (h : Counts G targetSize) (hG : G.buffered = true)
    {s : Generator.State} {e : Generator.Event} (hs : InLoop G targetSize s) :
    AsksRight G targetSize s e := by
  intro written hpc hlt
  obtain ⟨hpos, -⟩ := hs written hpc
  refine ⟨h.remaining hpos hlt, h.request_pos hpos hlt, ?_⟩
  refine (h.request_le hpos hlt).resolve_right fun hnot => ?_
  rw [hG] at hnot
  cases hnot.1

/-- What the Go generator has written is in the file. -/
theorem not_losesTail {G : Generator} (hG : G.buffered = false) {s t : Generator.State}
    {e : Generator.Event} (ht : G.step targetSize s e = some t) : ¬LosesTail s e := by
  cases moves_of_step ht with
  | close done le all =>
    rintro ⟨written, hpc, hlt⟩
    cases hpc
    rw [hG] at all
    rcases all with hall | hall
    · cases hall
    · omega
  | _ => exact id

theorem exact_iff_of_buffered {G : Generator} (hcounts : Counts G targetSize)
    (hG : G.buffered = true) (ht : run (G.step targetSize) es (start file) = some t) :
    G.Exact targetSize file es t ↔ ¬Sometime (G.step targetSize) LosesTail es (start file) := by
  have hasks : Along (G.step targetSize) (AsksRight G targetSize) es (start file) :=
    along_of_invariant (fun s e t hs ht => (inLoop_step hcounts hs ht).1)
      (fun s e t hs _ => asksRight_of_buffered hcounts hG hs)
      (inLoop_start G targetSize file) ht
  rw [exact_iff hcounts ht]
  exact and_iff_right hasks

theorem GoTcp.exact_iff_of_size (hsize : targetSize < 2 ^ 63)
    (ht : run (generateTestFileIfNotExists.step targetSize) es (start file) = some t) :
    generateTestFileIfNotExists.Exact targetSize file es t ↔
      ¬Sometime (generateTestFileIfNotExists.step targetSize) (Overflows targetSize) es
        (start file) := by
  have hcounts := counts_generateTestFileIfNotExists hsize
  have hkeep : ∀ s e t, InLoop generateTestFileIfNotExists targetSize s →
      generateTestFileIfNotExists.step targetSize s e = some t →
      InLoop generateTestFileIfNotExists targetSize t :=
    fun s e t hs ht => (inLoop_step hcounts hs ht).1
  have hstart := inLoop_start generateTestFileIfNotExists targetSize file
  have hkept : ¬Sometime (generateTestFileIfNotExists.step targetSize) LosesTail es
      (start file) := by
    rw [← along_iff_not_sometime (C := fun s e => ¬LosesTail s e) hkeep
      (fun s e t _ _ => Iff.rfl) hstart ht]
    exact along_of_invariant hkeep (fun s e t _ ht => not_losesTail rfl ht) hstart ht
  rw [exact_iff hcounts ht, and_iff_left hkept]
  exact along_iff_not_sometime hkeep (fun s e t hs _ => asksRight_iff hsize hs) hstart ht

/-- Every run of a generator ends, whatever the size of the file that is there and whatever
fails. A run of one of those in C++ is exact unless closing the file loses bytes, one of that in
Go unless it comes to a sum that is no `int64`. -/
theorem generation_iff (targetSize : ℕ) (file : Option ℕ) (es : List Generator.Event)
    (t : Generator.State) :
    (∀ G : Generator, G = Common.generateTestFile ∨ G = Tcp.generateTestFileIfNotExists →
      targetSize < 2 ^ 64 → run (G.step targetSize) es (start file) = some t →
      (G.Exact targetSize file es t ↔
        ¬Sometime (G.step targetSize) LosesTail es (start file)) ∧
      es.length ≤ targetSize + 5 ∧
        (t.pc = .returned ∨ t.pc = .failed ∨ ∃ e u, G.step targetSize t e = some u)) ∧
    (targetSize < 2 ^ 63 →
      run (GoTcp.generateTestFileIfNotExists.step targetSize) es (start file) = some t →
      (GoTcp.generateTestFileIfNotExists.Exact targetSize file es t ↔
        ¬Sometime (GoTcp.generateTestFileIfNotExists.step targetSize) (Overflows targetSize) es
          (start file)) ∧
      es.length ≤ targetSize + 5 ∧
        (t.pc = .returned ∨ t.pc = .failed ∨
          ∃ e u, GoTcp.generateTestFileIfNotExists.step targetSize t e = some u)) := by
  constructor
  · intro G hG hsize ht
    have hcounts : Counts G targetSize := by
      rcases hG with rfl | rfl
      · exact Common.counts_generateTestFile hsize
      · exact Tcp.counts_generateTestFileIfNotExists hsize
    have hbuffered : G.buffered = true := by rcases hG with rfl | rfl <;> rfl
    exact ⟨exact_iff_of_buffered hcounts hbuffered ht, terminates hcounts ht⟩
  · intro hsize ht
    exact ⟨GoTcp.exact_iff_of_size hsize ht,
      terminates (GoTcp.counts_generateTestFileIfNotExists hsize) ht⟩

/-- The disk is full within the second block. -/
def diskFullRun : List Generator.Event :=
  [.check, .removeOld true, .openFile true, .write 1048576, .writeFails 1048580,
    .removePartial true]

theorem generation_iff_diskFull :
    ∃ t, run (Tcp.generateTestFileIfNotExists.step 2097152) diskFullRun (start (some 7)) = some t ∧
      t.pc = .failed ∧ t.file = none ∧
      Tcp.generateTestFileIfNotExists.Exact 2097152 (some 7) diskFullRun t := by
  refine ⟨⟨none, .failed⟩, by decide +kernel, rfl, rfl, ?_⟩
  have hrun : run (Tcp.generateTestFileIfNotExists.step 2097152) diskFullRun (start (some 7)) =
      some ⟨none, .failed⟩ := by decide +kernel
  refine ((generation_iff _ _ _ _).1 _ (.inr rfl) (by decide) hrun).1.mpr ?_
  simp [Sometime, diskFullRun, LosesTail]

namespace GoTcp

/-- All blocks but the last of the largest file are written. -/
theorem run_blocks (n : ℕ) (h : n < 2 ^ 43) :
    ∃ es, run (generateTestFileIfNotExists.step (2 ^ 63 - 1)) es (start none) =
      some ⟨some (n * 1048576), .loop (n * 1048576)⟩ := by
  induction n with
  | zero => exact ⟨[.check, .openFile true], rfl⟩
  | succ n ih =>
    obtain ⟨es, hes⟩ := ih (by omega)
    have hrequest : generateTestFileIfNotExists.request ((2 ^ 63 - 1 : ℕ) : ℤ) (n * 1048576) =
        1048576 := by
      rw [request_of_lt (by decide) (by omega) (by omega) (by simp only [bufferSize]; omega)]
      simp only [bufferSize]
      omega
    have hadvance : generateTestFileIfNotExists.advance (n * 1048576) 1048576 =
        ((n + 1 : ℕ) : ℤ) * 1048576 := by
      simp only [generateTestFileIfNotExists]
      rw [int64_eq (by omega) (by omega)]
      omega
    refine ⟨es ++ [.write ((n + 1) * 1048576)],
      Machine.run_concat_eq_some.mpr ⟨_, hes, ?_⟩⟩
    simp only [Generator.step, hrequest, hadvance]
    refine if_pos ⟨by omega, ⟨?_, by omega⟩, by omega, .inr (by omega)⟩
    simp only [Option.getD_some]
    omega

end GoTcp

/-- The one byte of a file is lost when the file is closed, and the generator returns. The last
write of the largest file asks for a byte more than what remains, and the system refuses it. -/
theorem generation_not_exact :
    (∃ es t, run (Common.generateTestFile.step 1) es (start none) = some t ∧
      t.pc = .returned ∧ t.file = some 0 ∧ ¬Common.generateTestFile.Exact 1 none es t) ∧
    ∃ es s t, run (GoTcp.generateTestFileIfNotExists.step (2 ^ 63 - 1)) es (start none) = some s ∧
      s.pc = .loop (2 ^ 63 - 1048576) ∧
      GoTcp.generateTestFileIfNotExists.remaining (2 ^ 63 - 1) (2 ^ 63 - 1048576) = 1048575 ∧
      GoTcp.generateTestFileIfNotExists.request (2 ^ 63 - 1) (2 ^ 63 - 1048576) = 1048576 ∧
      GoTcp.generateTestFileIfNotExists.step (2 ^ 63 - 1) s (.writeFails (2 ^ 63 - 1048576)) =
        some t ∧
      ¬GoTcp.generateTestFileIfNotExists.Exact (2 ^ 63 - 1) none
        (es ++ [.writeFails (2 ^ 63 - 1048576)]) t := by
  constructor
  · refine ⟨[.check, .openFile true, .write 0, .close 0], ⟨some 0, .returned⟩, by decide +kernel,
      rfl, rfl, fun hexact => ?_⟩
    exact absurd (hexact.returned rfl) (by decide)
  · obtain ⟨es, hes⟩ := GoTcp.run_blocks (2 ^ 43 - 1) (by decide)
    have hrequest : GoTcp.generateTestFileIfNotExists.request (2 ^ 63 - 1) (2 ^ 63 - 1048576) =
        1048576 := by decide +kernel
    refine ⟨es, ⟨some (2 ^ 63 - 1048576), .loop (2 ^ 63 - 1048576)⟩,
      ⟨some (2 ^ 63 - 1048576), .failed⟩, hes, rfl, by decide +kernel, hrequest, by decide +kernel,
      fun hexact => ?_⟩
    obtain ⟨-, hasks⟩ := (Machine.along_concat hes).mp hexact.asks
    obtain ⟨-, -, hle⟩ := hasks (2 ^ 63 - 1048576) (by decide) (by decide)
    revert hle
    decide +kernel

end ReversalBench
