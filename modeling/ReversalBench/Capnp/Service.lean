import ReversalBench.Capnp.Server

/-! A Cap'n Proto client with its connection to the server. It does what it would do if every
call were answered at once and right, up to the point where its connection is refused or
lost; then it exits with status 1. While the server accepts, the client or the server can
take a step on the connection, and each step brings the client closer to its end. -/

namespace ReversalBench.Capnp

open Blocks (blocks)
open StateTransition (Reaches)

variable {p q : Peer} {process : Process}

/-! ### A client by itself -/

/-- Connecting and the calls succeed, and every chunk is answered with its reversal. -/
def Setting.served (s : Setting) : Env where
  existingFileSize := s.env.existingFileSize
  generateTestFile := s.env.generateTestFile
  connect := .ok ()
  startStreaming := .ok ()
  openFile := s.env.openFile
  processChunk k := .ok ((blocks s.chunkSize.val s.file.bytes)[k]?.getD []).reverse
  doneStreaming := .ok ()

/-- A state that the client reaches by itself. -/
def Setting.Alone (s : Setting) (c : Client) : Prop :=
  Reaches (Client.next s.params s.served) (.init s.params s.clock) c

theorem Setting.Alone.inv {s : Setting} {c : Client} (h : s.Alone c) :
    Client.Inv s.file s.chunkSize s.target s.served c := by
  have hinit : Client.Inv s.file s.chunkSize s.target s.served (.init s.params s.clock) :=
    show Client.Fresh _ _ _ from ⟨rfl, rfl, rfl⟩
  refine Machine.invariant_reaches (P := Client.Inv s.file s.chunkSize s.target s.served)
    (fun c t hc hnext => ?_) hinit h
  obtain ⟨t', hnext', ht, -⟩ := Client.next_advances hc fun status hpc => by
    simp [Client.next, hpc] at hnext
  have hnext : Client.next (Capnp.params s.file s.chunkSize s.target) s.served c = some t := hnext
  rw [hnext, Option.some.injEq] at hnext'
  exact hnext' ▸ ht

/-- A step of the client brings it closer to its end. -/
theorem Setting.Alone.next {s : Setting} {c t : Client} (h : s.Alone c)
    (hnext : c.next s.params s.served = some t) :
    s.Alone t ∧ t.remaining s.file s.chunkSize < c.remaining s.file s.chunkSize := by
  refine ⟨h.tail hnext, ?_⟩
  obtain ⟨t', hnext', -, hlt⟩ := Client.next_advances h.inv fun status hpc => by
    simp [Client.next, hpc] at hnext
  have hnext : Client.next (Capnp.params s.file s.chunkSize s.target) s.served c = some t := hnext
  rw [hnext, Option.some.injEq] at hnext'
  exact hnext' ▸ hlt

/-- No reply is wrong, so what the client verifies is the whole file. -/
theorem Setting.rightUpTo (s : Setting) :
    s.served.RightUpTo (blocks s.chunkSize.val s.file.bytes)
      (blocks s.chunkSize.val s.file.bytes).length := by
  intro i hi _
  simp [Setting.served, List.getElem?_eq_getElem hi]

/-- The client can prepare its file and open it. -/
structure Setting.Prepared (s : Setting) : Prop where
  file : s.env.existingFileSize = some s.target ∨ s.env.generateTestFile
  openFile : s.env.openFile = .ok ()

theorem Setting.starts_iff (s : Setting) : s.served.Starts s.target ↔ s.Prepared :=
  ⟨fun h => ⟨h.prepared, h.openFile⟩, fun h => ⟨h.file, rfl, rfl, h.openFile⟩⟩

/-- A client that exits by itself has verified every chunk or could not prepare its file. -/
theorem Setting.Alone.exited {s : Setting} {c : Client} (h : s.Alone c) {status : ℕ}
    (hpc : c.pc = .exited status) :
    (s.Prepared ∧ status = 0 ∧ c.AllVerified s.file s.chunkSize s.served) ∨
      (¬s.Prepared ∧ status ≠ 0) := by
  have hinv := h.inv
  obtain ⟨hwrong, hthrows⟩ := s.rightUpTo.all
  simp only [Client.Inv, hpc] at hinv
  cases status with
  | zero =>
    obtain ⟨hverified, hstarts, -⟩ := hinv
    exact .inl ⟨s.starts_iff.mp hstarts, rfl, hverified.resolve_right hwrong⟩
  | succ status =>
    rcases hinv with hstarts | hdone | hcall
    · exact .inr ⟨fun hp => hstarts (s.starts_iff.mpr hp), Nat.succ_ne_zero _⟩
    · exact absurd rfl hdone
    · exact absurd hcall hthrows

/-! ### The calls of a client -/

theorem Client.calling_cases {c : Client} {call : Call} (h : c.calling = some call) :
    (c.pc = .startStreaming ∧ call = .startStreaming) ∨
    (c.pc = .loop ∧ c.reader.nextChunk.1 ≠ [] ∧ call = .processChunk c.reader.nextChunk.1) ∨
    (c.pc = .doneStreaming ∧ call = .doneStreaming) := by
  cases hpc : c.pc <;> simp only [Client.calling, hpc] at h
  case startStreaming => exact .inl ⟨rfl, (Option.some.inj h).symm⟩
  case loop =>
    split at h
    · cases h
    next hne => exact .inr (.inl ⟨rfl, by simpa using hne, (Option.some.inj h).symm⟩)
  case doneStreaming => exact .inr (.inr ⟨rfl, (Option.some.inj h).symm⟩)
  all_goals cases h

/-- A step without a call does not depend on the server. -/
theorem next_own {s : Setting} {c : Client} (hcalling : c.calling = none)
    (hpc : c.pc ≠ .connect) : c.next s.params s.env = c.next s.params s.served := by
  cases hc : c.pc with
  | connect => exact absurd hc hpc
  | startStreaming | doneStreaming => simp [Client.calling, hc] at hcalling
  | loop =>
    have hnil : c.reader.nextChunk.1 = [] := by simpa [Client.calling, hc] using hcalling
    cases heof : c.reader.nextChunk.2.eof <;>
      simp [Client.next, hc, Client.round, hnil, heof]
  | prepareFile =>
    simp only [Client.next, hc]
    rfl
  | openFile | finalCheck | save | exited status => simp only [Client.next, hc, Setting.served]

/-- A call that returns is a step of the client by itself. -/
theorem Setting.Alone.next_replying {s : Setting} {c : Client} (h : s.Alone c) {call : Call}
    (hcalling : c.calling = some call) :
    c.next s.params (s.env.replying (handle call)) = c.next s.params s.served := by
  rcases Client.calling_cases hcalling with ⟨hpc, rfl⟩ | ⟨hpc, hne, rfl⟩ | ⟨hpc, rfl⟩
  · simp [Client.next, hpc, handle, Env.replying, Setting.served]
  · have hinv := h.inv
    simp only [Client.Inv, hpc] at hinv
    obtain ⟨⟨k, hsending⟩, -⟩ := hinv
    have hk : k < (blocks s.chunkSize.val s.file.bytes).length := by
      by_contra hle
      exact hne (hsending.reader.nextChunk_end (not_lt.mp hle)).1
    obtain ⟨hread, -⟩ := hsending.reader.nextChunk hk
    simp [Client.next, hpc, Client.round, Client.exchange, handle, Env.replying, reverseBytes,
      Setting.served, hread, hsending.chunksSent, List.getElem?_eq_getElem hk]
  · simp [Client.next, hpc, handle, Env.replying, Setting.served]

/-- A call that throws makes the client exit. -/
theorem next_throwing {s : Setting} {c : Client} {e : Thrown}
    (h : c.pc = .connect ∨ c.calling.isSome = true) :
    ∃ t, c.next s.params (s.env.throwing e) = some t ∧ t.pc = .exited 1 := by
  rcases h with hpc | hcalling
  · exact ⟨c.caught e, by simp [Client.next, hpc, Env.throwing, Client.awaited], rfl⟩
  · obtain ⟨call, hcall⟩ := Option.isSome_iff_exists.mp hcalling
    rcases Client.calling_cases hcall with ⟨hpc, -⟩ | ⟨hpc, hne, -⟩ | ⟨hpc, -⟩
    · exact ⟨(c.call .startStreaming).caught e, by
        simp only [Client.next, hpc, Env.throwing, Client.awaited], rfl⟩
    · exact ⟨({ c with reader := c.reader.nextChunk.2 }.send c.reader.nextChunk.1).caught e, by
        simp only [Client.next, hpc, Client.round, List.isEmpty_iff, hne, false_and, if_false,
          Client.exchange, Env.throwing], rfl⟩
    · exact ⟨(c.call .doneStreaming).caught e, by
        simp only [Client.next, hpc, Env.throwing, Client.awaited], rfl⟩

/-! ### A client with its connection -/

/-- The connection is made by `connect` and not before. -/
def Pc.Linked (pc : Pc) (link : Link) : Prop :=
  match pc with
  | .prepareFile | .connect => link = .unconnected
  | .exited _ => True
  | _ => link = .waiting ∨ link = .accepted

/-- Only the first step of the client leads to `connect`, and only that of `connect` further. -/
theorem Setting.Alone.linked {s : Setting} {c t : Client} {link : Link} (h : s.Alone c)
    (hnext : c.next s.params s.served = some t) (hpc : c.pc ≠ .connect)
    (hlink : c.pc.Linked link) : t.pc.Linked link := by
  have hlt := (h.next hnext).2
  cases hc : c.pc with
  | connect => exact absurd hc hpc
  | exited status => simp [Client.next, hc] at hnext
  | prepareFile =>
    rw [hc] at hlink
    simp only [Client.next, hc] at hnext
    split at hnext <;> cases hnext
    · exact hlink
    · trivial
  | startStreaming | openFile | loop | doneStreaming | finalCheck | save =>
    simp only [Pc.Linked, hc] at hlink
    cases ht : t.pc with
    | prepareFile | connect =>
      simp only [Client.remaining, hc, ht] at hlt
      omega
    | exited status => trivial
    | startStreaming | openFile | loop | doneStreaming | finalCheck | save => exact hlink

/-- The client does as it would alone; what is under way belongs to the call it makes. -/
structure Served (p : Peer) : Prop where
  alone : p.setting.Alone p.client
  link : p.client.pc.Linked p.link
  request : ∀ {call}, p.request = some call → p.client.calling = some call ∧ p.reply = none
  reply : ∀ {reply}, p.reply = some reply →
    ∃ call, p.client.calling = some call ∧ reply = handle call

/-- The client did as it would alone until connecting or a call threw. -/
structure Lost (p : Peer) : Prop where
  before : ∃ c e, p.setting.Alone c ∧
    c.next p.setting.params (p.setting.env.throwing e) = some p.client
  exited : p.client.pc = .exited 1
  request : p.request = none
  reply : p.reply = none

theorem served_start (s : Setting) : Served s.start where
  alone := .refl
  link := rfl
  request h := by cases h
  reply h := by cases h

def Link.rank : Link → ℕ
  | .unconnected => 3
  | .waiting => 2
  | .accepted => 1
  | .disconnected => 0

/-- The steps that are left for a client and its connection. -/
def Peer.rank (p : Peer) : ℕ :=
  3 * p.client.remaining p.setting.file p.setting.chunkSize +
    (if p.reply.isSome then 0 else if p.request.isSome then 1 else 2) + p.link.rank

/-- What a step does to a client: it is served and comes closer to its end, or it is lost,
which takes a server that does not accept. -/
structure Moves (process : Process) (p q : Peer) : Prop where
  setting : q.setting = p.setting
  outcome : (Served q ∧ q.rank < p.rank) ∨ (process ≠ .accepting ∧ Lost q)

/-- The client takes a step of its own, with nothing under way afterwards. -/
theorem Served.client_step (h : Served p) {t : Client} {link : Link}
    (hnext : p.client.next p.setting.params p.setting.served = some t)
    (hlink : t.pc.Linked link) (hrank : link.rank ≤ p.link.rank) :
    Moves process p { p with client := t, link, request := none, reply := none } := by
  obtain ⟨halone, hlt⟩ := h.alone.next hnext
  refine ⟨rfl, .inl ⟨⟨halone, hlink, (by cases ·), (by cases ·)⟩, ?_⟩⟩
  simp only [Peer.rank, Option.isSome_none, Bool.false_eq_true, if_false]
  split <;> omega

theorem Served.lose (h : Served p) {e : Thrown} {t : Client} (hprocess : process ≠ .accepting)
    (hcalling : p.client.pc = .connect ∨ p.client.calling.isSome = true)
    (hnext : p.client.next p.setting.params (p.setting.env.throwing e) = some t) :
    Moves process p { p with client := t, request := none, reply := none } := by
  obtain ⟨t', hnext', hpc⟩ := @next_throwing p.setting p.client e hcalling
  rw [hnext, Option.some.injEq] at hnext'
  subst hnext'
  exact ⟨rfl, .inr ⟨hprocess, ⟨p.client, e, h.alone, hnext⟩, hpc, rfl, rfl⟩⟩

/-- Nothing is under way when the client makes no call. -/
theorem Served.idle (h : Served p) (hcalling : p.client.calling = none) :
    p.request = none ∧ p.reply = none := by
  refine ⟨?_, ?_⟩
  · refine Option.eq_none_iff_forall_ne_some.mpr fun call hcall => ?_
    have hcalling' := (h.request hcall).1
    rw [hcalling] at hcalling'
    cases hcalling'
  · refine Option.eq_none_iff_forall_ne_some.mpr fun reply hreply => ?_
    obtain ⟨call, hcalling', -⟩ := h.reply hreply
    rw [hcalling] at hcalling'
    cases hcalling'

theorem Client.calling_connect {c : Client} (h : c.pc = .connect) : c.calling = none := by
  simp [calling, h]

/-- A step on the connection that leaves the client alone. -/
theorem Served.link_step (h : Served p) {link : Link} (hlink : p.client.pc.Linked link)
    (hrank : link.rank < p.link.rank) : Moves process p { p with link } := by
  refine ⟨rfl, .inl ⟨⟨h.alone, hlink, h.request, h.reply⟩, ?_⟩⟩
  simp only [Peer.rank]
  omega

theorem Served.moves (h : Served p) {b : PeerAction}
    (hs : p.step process b = some q) : Moves process p q := by
  cases b with
  | own =>
    simp only [Peer.step] at hs
    split at hs
    · cases hs
    next hno =>
      obtain ⟨hpc, hcalling⟩ := not_or.mp hno
      have hcalling : p.client.calling = none := by simpa using hcalling
      obtain ⟨t, hnext, heq⟩ := Option.map_eq_some_iff.mp hs
      cases heq
      rw [next_own hcalling hpc] at hnext
      obtain ⟨hrequest, hreply⟩ := h.idle hcalling
      have hmoves := @Served.client_step p process h t p.link hnext
        (h.alone.linked hnext hpc h.link) le_rfl
      rw [← hrequest, ← hreply] at hmoves
      exact hmoves
  | connect =>
    simp only [Peer.step] at hs
    split at hs
    next hyes =>
      obtain ⟨-, hpc⟩ := hyes
      obtain ⟨t, hnext, heq⟩ := Option.map_eq_some_iff.mp hs
      cases heq
      obtain ⟨hrequest, hreply⟩ := h.idle (Client.calling_connect hpc)
      have hlink : p.link = .unconnected := by simpa [Pc.Linked, hpc] using h.link
      have hnext : p.client.next p.setting.params p.setting.served = some t := by
        rw [← hnext]
        simp [Client.next, hpc, Setting.served]
      have ht : t.pc.Linked .waiting := by
        simp only [Client.next, hpc, Setting.served, Client.awaited, Option.some.injEq] at hnext
        subst hnext
        exact .inl rfl
      have hmoves := @Served.client_step p process h t .waiting hnext ht
        (by rw [hlink]; decide)
      rw [← hrequest, ← hreply] at hmoves
      exact hmoves
    next => cases hs
  | refused e =>
    simp only [Peer.step] at hs
    split at hs
    next hyes =>
      obtain ⟨hprocess, hpc⟩ := hyes
      obtain ⟨t, hnext, heq⟩ := Option.map_eq_some_iff.mp hs
      cases heq
      obtain ⟨hrequest, hreply⟩ := h.idle (Client.calling_connect hpc)
      have hmoves := h.lose hprocess (.inl hpc) hnext
      rw [← hrequest, ← hreply] at hmoves
      exact hmoves
    next => cases hs
  | send =>
    simp only [Peer.step] at hs
    split at hs
    next call hcalling hrequest hreply =>
      cases hs
      refine ⟨rfl, .inl ⟨⟨h.alone, h.link, fun hcall => ?_, fun h => ?_⟩, ?_⟩⟩
      · cases hcall
        exact ⟨hcalling, hreply⟩
      · rw [hreply] at h
        cases h
      · simp [Peer.rank, hrequest, hreply]
    next => cases hs
  | receive =>
    simp only [Peer.step] at hs
    split at hs
    next reply hreply =>
      obtain ⟨t, hnext, heq⟩ := Option.map_eq_some_iff.mp hs
      cases heq
      obtain ⟨call, hcalling, rfl⟩ := h.reply hreply
      rw [h.alone.next_replying hcalling] at hnext
      have hrequest : p.request = none := by
        refine Option.eq_none_iff_forall_ne_some.mpr fun call hcall => ?_
        rw [(h.request hcall).2] at hreply
        cases hreply
      have hpc : p.client.pc ≠ .connect := fun hpc => by
        rw [Client.calling_connect hpc] at hcalling
        cases hcalling
      have hmoves := @Served.client_step p process h t p.link hnext
        (h.alone.linked hnext hpc h.link) le_rfl
      rw [← hrequest] at hmoves
      exact hmoves
    next => cases hs
  | broken e =>
    simp only [Peer.step] at hs
    split at hs
    next hyes =>
      obtain ⟨hprocess, hway⟩ := hyes
      obtain ⟨t, hnext, heq⟩ := Option.map_eq_some_iff.mp hs
      cases heq
      refine h.lose hprocess (.inr ?_) hnext
      rcases hway with hrequest | hreply
      · obtain ⟨call, hcall⟩ := Option.isSome_iff_exists.mp hrequest
        rw [(h.request hcall).1]
        rfl
      · obtain ⟨reply, hreply⟩ := Option.isSome_iff_exists.mp hreply
        obtain ⟨call, hcalling, -⟩ := h.reply hreply
        rw [hcalling]
        rfl
    next => cases hs
  | accept =>
    simp only [Peer.step] at hs
    split at hs
    next hyes =>
      cases hs
      refine h.link_step ?_ (by rw [hyes.2]; decide)
      have hlink := h.link
      rw [hyes.2] at hlink
      cases hpc : p.client.pc <;> simp [Pc.Linked, hpc] at hlink ⊢
    next => cases hs
  | handle =>
    simp only [Peer.step] at hs
    split at hs
    next call hrequest =>
      split at hs
      · cases hs
        obtain ⟨hcalling, hreply⟩ := h.request hrequest
        refine ⟨rfl, .inl ⟨⟨h.alone, h.link, (by cases ·), fun h => ?_⟩, ?_⟩⟩
        · cases h
          exact ⟨call, hcalling, rfl⟩
        · simp [Peer.rank, hrequest, hreply]
      · cases hs
    next => cases hs
  | disconnect =>
    simp only [Peer.step] at hs
    split at hs
    next status hpc =>
      split at hs
      next hyes =>
        cases hs
        exact h.link_step (by rw [hpc]; trivial) (by rw [hyes.2]; decide)
      next => cases hs
    next => cases hs

/-- A client that has exited takes no further step. -/
theorem Lost.moves (h : Lost p) {b : PeerAction} (hs : p.step process b = some q) :
    q.setting = p.setting ∧ Lost q := by
  have hcalling : p.client.calling = none := by simp [Client.calling, h.exited]
  cases b with
  | own => simp [Peer.step, hcalling, Client.next, h.exited] at hs
  | connect | refused e => simp [Peer.step, h.exited] at hs
  | send => simp [Peer.step, hcalling] at hs
  | receive => simp [Peer.step, h.reply] at hs
  | broken e => simp [Peer.step, h.request, h.reply] at hs
  | handle => simp [Peer.step, h.request] at hs
  | accept =>
    simp only [Peer.step] at hs
    split at hs <;> cases hs
    exact ⟨rfl, h.before, h.exited, h.request, h.reply⟩
  | disconnect =>
    simp only [Peer.step, h.exited] at hs
    split at hs <;> cases hs
    exact ⟨rfl, h.before, h.exited, h.request, h.reply⟩

/-- Before the client has exited, it or the server can take a step. -/
theorem Served.progress (h : Served p) (hpc : ∀ status, p.client.pc ≠ .exited status) :
    ∃ b q, p.step .accepting b = some q := by
  obtain ⟨t, hnext, -⟩ := Client.next_advances h.alone.inv hpc
  have hnext : p.client.next p.setting.params p.setting.served = some t := hnext
  cases hreply : p.reply with
  | some reply =>
    obtain ⟨call, hcalling, rfl⟩ := h.reply hreply
    rw [← h.alone.next_replying hcalling] at hnext
    exact ⟨.receive, _, by simp only [Peer.step, hreply, hnext, Option.map_some]; rfl⟩
  | none =>
    cases hrequest : p.request with
    | some call =>
      have hlink : p.link = .waiting ∨ p.link = .accepted := by
        have hlinked := h.link
        rcases Client.calling_cases (h.request hrequest).1 with ⟨hpc, -⟩ | ⟨hpc, -⟩ | ⟨hpc, -⟩ <;>
          simpa only [Pc.Linked, hpc] using hlinked
      rcases hlink with hlink | hlink
      · exact ⟨.accept, _, by simp only [Peer.step, hlink, and_self, if_true]; rfl⟩
      · exact ⟨.handle, _, by simp only [Peer.step, hrequest, hlink, and_self, if_true]; rfl⟩
    | none =>
      cases hcalling : p.client.calling with
      | some call => exact ⟨.send, _, by simp only [Peer.step, hcalling, hrequest, hreply]; rfl⟩
      | none =>
        by_cases hconnect : p.client.pc = .connect
        · refine ⟨.connect, { p with
            client := { p.client with pc := .startStreaming }
            link := .waiting }, ?_⟩
          simp [Peer.step, hconnect, Client.next, Client.awaited]
        · rw [← next_own hcalling hconnect] at hnext
          refine ⟨.own, { p with client := t }, ?_⟩
          simp [Peer.step, hconnect, hcalling, hnext]

end ReversalBench.Capnp
