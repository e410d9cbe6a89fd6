import ReversalBench.Common.ShortReads
import ReversalBench.Grpc.Exit

/-! The gRPC client over reads that may come short or fail. Its threads look at the chunks only,
so every run over a disk is a run over the file that the reads yield, with the same failures
and the same responses. -/

namespace ReversalBench.Grpc

open Blocks (blocks)
open Common (ChunkReader)
open Machine (run log Sometime)

variable {P : Params} {disk : Disk} {f : File} {chunkSize : ChunkSize} {s s' t : ClientState}
  {r : ChunkReader}

def ClientState.withReader (s : ClientState) (r : ChunkReader) : ClientState :=
  { s with reader := r }

/-- The states differ in their readers only, and these return the same chunks. -/
def ClientState.Alike (disk : Disk) (f : File) (chunkSize : ChunkSize) (s s' : ClientState) :
    Prop :=
  s' = s.withReader s'.reader ∧ ChunkReader.InStep disk f chunkSize s.reader s'.reader

/-! ### The reader is set aside -/

theorem lookup_withReader (response : ChunkResponse) (now : ℤ) :
    (s.withReader r).lookup response now = (s.lookup response now).withReader r := by
  have hmap : (s.withReader r).inflightRequestsMap = s.inflightRequestsMap := rfl
  unfold ClientState.lookup
  dsimp only
  rw [hmap]
  cases s.inflightRequestsMap.lookup (toSizeT response.originalClientChunkId) <;> rfl

theorem verify_withReader (entry : SentChunkInfo) (response : ChunkResponse) :
    (s.withReader r).verify entry response = (s.verify entry response).withReader r := by
  unfold ClientState.verify
  dsimp only
  split_ifs <;> rfl

theorem leftover_withReader : (s.withReader r).leftover = s.leftover.withReader r := by
  unfold ClientState.leftover ClientState.withReader
  dsimp only
  split_ifs <;> rfl

theorem finish_withReader (status : Status) (now : ℤ) :
    (s.withReader r).finish status now = (s.finish status now).withReader r := by
  unfold ClientState.finish
  dsimp only
  split_ifs <;> rfl

theorem check_withReader (status : Status) :
    (s.withReader r).check P status = (s.check P status).withReader r := by
  unfold ClientState.check ClientState.withReader
  dsimp only
  split_ifs <;> rfl

/-- The writer touches the reader only where it reads a chunk. -/
theorem writerStep_withReader {a : WriterAction} (h : ∀ now, a ≠ .nextChunk now) :
    writerStep P (s.withReader r) a = (writerStep P s a).map fun t => t.withReader r := by
  have hwriter : (s.withReader r).writer = s.writer := rfl
  cases a with
  | nextChunk now => exact absurd rfl (h now)
  | wake =>
    simp only [writerStep, hwriter]
    cases s.writer <;> try rfl
    have hroom : (s.withReader r).HasRoom P ↔ s.HasRoom P := Iff.rfl
    simp only [hroom]
    split <;> rfl
  | throws what =>
    simp only [writerStep, hwriter]
    split <;> rfl
  | write ok =>
    simp only [writerStep, hwriter]
    cases s.writer <;> try rfl
    cases ok <;> rfl
  | insert =>
    simp only [writerStep, hwriter]
    cases s.writer <;> rfl
  | finish =>
    simp only [writerStep, hwriter]
    cases s.writer <;> rfl
  | writesDone ok =>
    simp only [writerStep, hwriter]
    cases s.writer <;> rfl
  | notifyAll =>
    simp only [writerStep, hwriter]
    cases s.writer <;> rfl

/-- The other thread never does. -/
theorem mainStep_withReader (a : MainAction) :
    mainStep P (s.withReader r) a = (mainStep P s a).map fun t => t.withReader r := by
  have hmain : (s.withReader r).main = s.main := rfl
  have hwriter : (s.withReader r).writer = s.writer := rfl
  cases a with
  | openStream ok now =>
    simp only [mainStep, hmain]
    cases s.main <;> cases ok <;> rfl
  | read response now =>
    simp only [mainStep, hmain]
    cases s.main <;> cases response <;> rfl
  | throws what =>
    simp only [mainStep, hmain]
    split <;> rfl
  | lookup =>
    simp only [mainStep, hmain]
    cases s.main <;> try rfl
    exact congrArg some (lookup_withReader _ _)
  | account =>
    simp only [mainStep, hmain]
    cases s.main <;> rfl
  | verify =>
    simp only [mainStep, hmain]
    cases s.main <;> try rfl
    exact congrArg some (verify_withReader _ _)
  | join =>
    simp only [mainStep, hmain, hwriter]
    cases s.main <;> cases s.writer <;> rfl
  | leftover =>
    simp only [mainStep, hmain]
    cases s.main <;> try rfl
    exact congrArg some leftover_withReader
  | finish status now =>
    simp only [mainStep, hmain]
    cases s.main <;> try rfl
    exact congrArg some (finish_withReader _ _)
  | check =>
    simp only [mainStep, hmain]
    cases s.main <;> try rfl
    exact congrArg some (check_withReader _)

/-! ### States that are alike -/

/-- A chunk is read and its request prepared. -/
theorem prepare_withReader (now : ℤ) (hchunk : s.reader.nextChunk.1 = r.nextChunk.1)
    (hnil : s.reader.nextChunk.1 = [] →
      s.reader.nextChunk.2.eof = true ∧ r.nextChunk.2.eof = true) :
    (s.withReader r).prepare P now = (s.prepare P now).withReader r.nextChunk.2 := by
  have hreader : (s.withReader r).reader = r := rfl
  by_cases hempty : s.reader.nextChunk.1 = []
  · obtain ⟨heof, heof'⟩ := hnil hempty
    have hempty' := hchunk.symm.trans hempty
    simp only [ClientState.prepare, hreader, hempty, hempty', heof, heof', List.isEmpty_nil,
      and_self, if_true]
    rfl
  · simp only [ClientState.prepare, hreader, ← hchunk, List.isEmpty_iff, hempty, false_and,
      if_false]
    rfl

/-- A step is enabled in both of two states that are alike, with the same effect. -/
theorem ClientState.Alike.step {a : Action} (hf : disk.Yields chunkSize.val f)
    (h : s.Alike disk f chunkSize s') (hs : step P s a = some t) :
    ∃ t', Grpc.step P s' a = some t' ∧ t.Alike disk f chunkSize t' := by
  obtain ⟨hsame, hreaders⟩ := h
  rw [hsame]
  have hother : ∀ {u : Option ClientState}, u = some t →
      (∀ r, Grpc.step P (s.withReader r) a = u.map fun t => t.withReader r) →
        ∃ t', Grpc.step P (s.withReader s'.reader) a = some t' ∧ t.Alike disk f chunkSize t' := by
    intro u hu hcommutes
    rw [hu] at hcommutes
    refine ⟨t.withReader s'.reader, hcommutes _, rfl, ?_⟩
    have hself : t = t.withReader s.reader := Option.some.inj (hs.symm.trans (hcommutes s.reader))
    rw [hself]
    exact hreaders
  cases a with
  | main a => exact hother hs fun r => mainStep_withReader a
  | writer a =>
    by_cases hread : ∃ now, a = .nextChunk now
    · obtain ⟨now, rfl⟩ := hread
      obtain ⟨hchunk, hreaders', hnil⟩ := hreaders.nextChunk hf
      have hwriter : (s.withReader s'.reader).writer = s.writer := rfl
      simp only [Grpc.step, writerStep, hwriter] at hs ⊢
      split at hs <;> cases hs
      refine ⟨_, rfl, ?_⟩
      rw [prepare_withReader now hchunk hnil]
      refine ⟨rfl, ?_⟩
      have hself : s.prepare P now = (s.prepare P now).withReader s.reader.nextChunk.2 :=
        prepare_withReader now rfl fun hempty => ⟨(hnil hempty).1, (hnil hempty).1⟩
      rw [hself]
      exact hreaders'
    · exact hother hs fun r => writerStep_withReader fun now hnow => hread ⟨now, hnow⟩

/-- No step fails in the one state only. -/
theorem ClientState.Alike.fails_iff {a : Action} (hf : disk.Yields chunkSize.val f)
    (h : s.Alike disk f chunkSize s') : Fails s a ↔ Fails s' a := by
  obtain ⟨hsame, hreaders⟩ := h
  obtain ⟨hchunk, -, hnil⟩ := hreaders.nextChunk hf
  have hreports : Reports s a ↔ Reports s' a := by
    rw [hsame]
    by_cases hread : ∃ now, a = .writer (.nextChunk now)
    · obtain ⟨now, rfl⟩ := hread
      refine iff_of_false ?_ ?_
      · rintro ⟨hempty, heof⟩
        exact Bool.false_ne_true (heof.symm.trans (hnil hempty).1)
      · rintro ⟨hempty, heof⟩
        exact Bool.false_ne_true (heof.symm.trans (hnil (hchunk.trans hempty)).2)
    · cases a with
      | main a => cases a <;> rfl
      | writer a =>
        cases a with
        | nextChunk now => exact absurd ⟨now, rfl⟩ hread
        | _ => rfl
  unfold Fails WriteFails
  rw [hreports]

/-! ### Runs of the program -/

namespace Program

variable {c c' u : Program} {as : List ProgramAction}

/-- The programs differ in their readers only. -/
def Alike (disk : Disk) (f : File) (chunkSize : ChunkSize) (c c' : Program) : Prop :=
  c.pc = c'.pc ∧ c.client.Alike disk f chunkSize c'.client

theorem Alike.step {a : ProgramAction} (hf : disk.Yields chunkSize.val f)
    (h : Alike disk f chunkSize c c') (hu : step P c a = some u) :
    ∃ u', step P c' a = some u' ∧ Alike disk f chunkSize u u' := by
  obtain ⟨hpc, hclient⟩ := h
  have hmain : c'.client.main = c.client.main := by
    rw [hclient.1]
    rfl
  rcases step_cases hu with
    ⟨b, client, rfl, hnext, hrunning, rfl⟩ | ⟨what, rfl, hcan, hrunning, rfl⟩ |
      ⟨rfl, ⟨allVerified, hreturned⟩, hrunning, rfl⟩
  · obtain ⟨client', hnext', hR⟩ := hclient.step hf hnext
    refine ⟨{ c' with client := client' }, ?_, hpc, hR⟩
    simp only [Program.step, ← hpc, hrunning, hnext', Option.map_some]
  · have hcan' : c'.CanThrow := by
      rw [CanThrow, hmain]
      exact hcan
    refine ⟨⟨c'.client.logError ("gRPC Client (main): Exception caught: " ++ what), .exited 0⟩,
      by simp only [Program.step, ← hpc, hrunning, if_pos hcan'], rfl, ?_, hclient.2⟩
    show c'.client.logError _ = _
    rw [hclient.1]
    rfl
  · refine ⟨{ c' with pc := .exited 0 }, ?_, rfl, hclient⟩
    simp only [Program.step, ← hpc, hrunning, hmain, hreturned]

theorem Alike.fails_iff {a : ProgramAction} (hf : disk.Yields chunkSize.val f)
    (h : Alike disk f chunkSize c c') : Fails c a ↔ Fails c' a := by
  cases a with
  | client a => exact h.2.fails_iff hf
  | throws what => exact Iff.rfl
  | returns => exact Iff.rfl

end Program

end ReversalBench.Grpc
