import ReversalBench.Common.ShortReads
import ReversalBench.Capnp.Exit

/-! The Cap'n Proto client over reads that may come short or fail. It looks at its chunks only,
so it does what it would do with an unchanged file that holds what the reads yield. -/

namespace ReversalBench.Capnp

open Blocks (blocks)
open Common (ChunkReader)
open Machine (Halts)

/-- Nothing throws and all replies come, but the reads end before the end of the file. -/
structure Env.EndsEarly (env : Env) (disk : AddressableDisk) (chunkSize : ChunkSize)
    (target : ℕ) : Prop where
  starts : env.Starts target
  returns : ¬ env.CallThrows (blocks chunkSize.val (disk.yielded chunkSize).bytes)
  doneStreaming : env.doneStreaming = .ok ()
  endsEarly : disk.EndsEarly chunkSize.val target

namespace Client

variable {P : Params} {env : Env} {disk d : Disk} {f : File} {chunkSize : ChunkSize}
  {c c' t : Client} {r : ChunkReader}

def withReader (c : Client) (r : ChunkReader) : Client := { c with reader := r }

/-- The states differ in their readers only, and these return the same chunks. -/
def Alike (disk : Disk) (f : File) (chunkSize : ChunkSize) (c c' : Client) : Prop :=
  c' = c.withReader c'.reader ∧ ChunkReader.InStep disk f chunkSize c.reader c'.reader

theorem awaited_withReader (c : Client) (outcome : Except Thrown Unit) (pc : Pc) :
    (c.withReader r).awaited outcome pc = (c.awaited outcome pc).withReader r := by
  cases outcome <;> rfl

theorem exchange_withReader (c : Client) (chunkBuffer : List UInt8) :
    (c.withReader r).exchange env chunkBuffer = (c.exchange env chunkBuffer).withReader r := by
  have hsent : (c.withReader r).chunksSent = c.chunksSent := rfl
  unfold exchange
  rw [hsent]
  cases env.processChunk c.chunksSent with
  | error e => rfl
  | ok response =>
    dsimp only [verify]
    split_ifs <;> rfl

theorem finalCheck_withReader (c : Client) :
    (c.withReader r).finalCheck P = (c.finalCheck P).withReader r := by
  unfold finalCheck
  split_ifs <;> first | rfl | contradiction

/-- A round with a reader that returns the same chunk. -/
theorem round_withReader (hchunk : c.reader.nextChunk.1 = r.nextChunk.1)
    (hnil : c.reader.nextChunk.1 = [] →
      c.reader.nextChunk.2.eof = true ∧ r.nextChunk.2.eof = true) :
    (c.withReader r).round env = (c.round env).withReader r.nextChunk.2 := by
  have hreader : (c.withReader r).reader = r := rfl
  by_cases hempty : c.reader.nextChunk.1 = []
  · obtain ⟨heof, heof'⟩ := hnil hempty
    have hempty' := hchunk.symm.trans hempty
    simp only [round, hreader, hempty, hempty', heof, heof', List.isEmpty_nil, and_self, if_true]
    rfl
  · simp only [round, hreader, ← hchunk, List.isEmpty_iff, hempty, false_and, if_false]
    exact exchange_withReader (r := r.nextChunk.2) { c with reader := c.reader.nextChunk.2 } _

/-- Outside the loop the reader is not touched. -/
theorem next_withReader (h : c.pc ≠ .loop) :
    next { P with disk := d } env (c.withReader r) =
      (next P env c).map fun t => t.withReader r := by
  have hpc : (c.withReader r).pc = c.pc := rfl
  unfold next
  rw [hpc]
  cases hc : c.pc with
  | prepareFile =>
    dsimp only
    split <;> rfl
  | connect => exact congrArg some (awaited_withReader c env.connect .startStreaming)
  | startStreaming =>
    exact congrArg some
      (awaited_withReader (c.call .startStreaming) env.startStreaming .openFile)
  | openFile => cases env.openFile <;> rfl
  | loop => exact absurd hc h
  | doneStreaming =>
    exact congrArg some (awaited_withReader (c.call .doneStreaming) env.doneStreaming .finalCheck)
  | finalCheck =>
    dsimp only [Option.map_some]
    exact congrArg some (finalCheck_withReader (P := P) c)
  | save => rfl
  | exited status => rfl

/-- `main` stops in both of two states that are alike, or goes on in both. -/
theorem Alike.next (hf : disk.Yields chunkSize.val f) (h : Alike disk f chunkSize c c') :
    (Client.next P env c = none ∧ Client.next { P with disk := d } env c' = none) ∨
      ∃ t t', Client.next P env c = some t ∧ Client.next { P with disk := d } env c' = some t' ∧
        Alike disk f chunkSize t t' := by
  obtain ⟨hsame, hreaders⟩ := h
  rw [hsame]
  by_cases hloop : c.pc = .loop
  · obtain ⟨hchunk, hreaders', hnil⟩ := hreaders.nextChunk hf
    have hloop' : (c.withReader c'.reader).pc = .loop := hloop
    have hround := @round_withReader env _ _ hchunk hnil
    have hself : c.round env = (c.round env).withReader c.reader.nextChunk.2 :=
      round_withReader rfl fun hempty => ⟨(hnil hempty).1, (hnil hempty).1⟩
    refine .inr ⟨c.round env, (c.withReader c'.reader).round env, by simp only [Client.next, hloop],
      by simp only [Client.next, hloop'], ?_⟩
    rw [hround]
    refine ⟨rfl, ?_⟩
    rw [hself]
    exact hreaders'
  · have hself := @next_withReader P env P.disk c c.reader hloop
    have hstep := @next_withReader P env d c c'.reader hloop
    cases ht : Client.next P env c with
    | none =>
      rw [ht] at hstep
      exact .inl ⟨rfl, hstep⟩
    | some t =>
      rw [ht] at hstep hself
      refine .inr ⟨t, t.withReader c'.reader, rfl, hstep, rfl, ?_⟩
      have hreader : t = t.withReader c.reader := Option.some.inj (ht.symm.trans hself)
      rw [hreader]
      exact hreaders

end Client

end ReversalBench.Capnp
