import ReversalBench.Tcp.ClientReader
import ReversalBench.GoTcp.ClientReader

/-! Either TCP client on a connection to either TCP server. The two programs run at the
same time; the network delivers the bytes of each direction one by one, whenever it
likes. Which program takes a step and which byte arrives next is left open throughout. -/

namespace ReversalBench

open Machine (Settles)
open Reader (tokens)
open Tcp (exchange accepts lengthHeader)

/-- Who sends a file, and what it finds when it starts: its clock, and the contents of the
header buffers. -/
inductive ClientProgram where
  | cpp (host : ByteOrder) (clock : Clock) (headers : Tcp.HeaderBuffer × Tcp.HeaderBuffer)
  | go (clock : Clock)

/-- Who serves the connection: a session with its limit and its buffers, or a handler. -/
inductive ServerProgram where
  | cpp (host : ByteOrder) (chunkSize : ChunkSize) (session : Tcp.TCPSession)
  | go

namespace ClientProgram

def State : ClientProgram → Type
  | cpp _ _ _ => Tcp.TCPClient
  | go _ => GoTcp.Round (GoTcp.Conn × Clock)

def reader (chunkSize : ChunkSize) : (p : ClientProgram) → Reader p.State UInt8
  | cpp host _ _ => Tcp.TCPClient.reader host chunkSize
  | go _ => GoTcp.Round.reader

def start (f : File) (chunkSize : ChunkSize) : (p : ClientProgram) → p.State
  | cpp _ clock headers => (Tcp.TCPClient.new chunkSize (Disk.ofFile f) (.new clock) headers).start
  | go clock => GoTcp.Round.connected f chunkSize clock

/-- The chunk sizes with which the program sends the blocks of the file: their lengths fit into
a header, and the Go client gets each of them in one read, which is at most 1 GiB. -/
def SendsBlocks (chunkSize : ChunkSize) : ClientProgram → Prop
  | cpp _ _ _ => chunkSize.val < 2 ^ 32
  | go _ => chunkSize.val ≤ 2 ^ 30

theorem SendsBlocks.lt {chunkSize : ChunkSize} {p : ClientProgram}
    (h : p.SendsBlocks chunkSize) : chunkSize.val < 2 ^ 32 := by
  cases p with
  | cpp host clock headers => exact h
  | go clock => exact lt_of_le_of_lt h (by decide)

/-- The program has ended, all chunks of the file being verified. -/
def Succeeded (f : File) (chunkSize : ChunkSize) : (p : ClientProgram) → p.State → Prop
  | cpp _ _ _ => Tcp.TCPClient.Succeeded f chunkSize
  | go _ => GoTcp.Round.Succeeded f chunkSize

/-- The program has ended with an error, no chunk being verified. -/
def Failed (f : File) (chunkSize : ChunkSize) : (p : ClientProgram) → p.State → Prop
  | cpp _ _ _ => Tcp.TCPClient.Failed f chunkSize
  | go _ => GoTcp.Round.Failed

theorem Succeeded.stopped {f : File} {chunkSize : ChunkSize} {p : ClientProgram} {s : p.State}
    (h : p.Succeeded f chunkSize s) (l : List (Option UInt8)) :
    (p.reader chunkSize).endpoint.step s l = none := by
  cases p with
  | cpp host clock headers => exact Tcp.TCPClient.stopped h l
  | go clock => exact GoTcp.Round.Succeeded.stopped h l

theorem Failed.stopped {f : File} {chunkSize : ChunkSize} {p : ClientProgram} {s : p.State}
    (h : p.Failed f chunkSize s) (l : List (Option UInt8)) :
    (p.reader chunkSize).endpoint.step s l = none := by
  cases p with
  | cpp host clock headers => exact Tcp.TCPClient.stopped h l
  | go clock => exact GoTcp.Round.Failed.stopped h l

variable {f : File} {chunkSize : ChunkSize}

theorem asks (p : ClientProgram) (hsize : chunkSize.val < 2 ^ 32) :
    (p.reader chunkSize).endpoint.Asks (p.Succeeded f chunkSize) (tokens [] true)
      ((Blocks.blocks chunkSize.val f.bytes).map exchange) (p.start f chunkSize) [] := by
  cases p with
  | cpp host clock headers => exact Tcp.TCPClient.asks host clock headers f hsize
  | go clock => exact GoTcp.Round.asks clock f hsize

theorem asks_refused (p : ClientProgram)
    (hpos : 0 < (Blocks.blocks chunkSize.val f.bytes).length) :
    (p.reader chunkSize).endpoint.Asks (p.Failed f chunkSize) (tokens [] true)
      [(tokens (lengthHeader.frame (Blocks.blocks chunkSize.val f.bytes)[0]) false,
        tokens [] true)] (p.start f chunkSize) [] := by
  cases p with
  | cpp host clock headers =>
    have hf : f.bytes ≠ [] := by
      rintro hf
      simp [hf] at hpos
    rw [← Tcp.ChunkReader.delivered_ofFile hpos]
    exact Tcp.TCPClient.asks_refused host clock headers hf
  | go clock => exact GoTcp.Round.asks_refused clock hpos

end ClientProgram

namespace ServerProgram

def State : ServerProgram → Type
  | cpp _ _ _ => Tcp.TCPSession
  | go => Option GoTcp.Returned

def reader : (p : ServerProgram) → Reader p.State UInt8
  | cpp host chunkSize _ => Tcp.TCPSession.reader host chunkSize
  | go => GoTcp.Handling.reader

def start : (p : ServerProgram) → p.State
  | cpp _ _ session => session.start
  | go => none

/-- The lengths of payloads that the program takes. -/
def takes : ServerProgram → ℕ → Bool
  | cpp _ chunkSize _, n => accepts chunkSize n
  | go, _ => true

/-- The connection is done with: the session is released, the handler has returned. -/
def Ended : (p : ServerProgram) → p.State → Prop
  | cpp _ _ _ => Tcp.TCPSession.Released
  | go => fun s => s.isSome = true

theorem Ended.stopped {p : ServerProgram} {s : p.State} (h : p.Ended s)
    (l : List (Option UInt8)) : p.reader.endpoint.step s l = none := by
  cases p with
  | cpp host chunkSize session => exact Tcp.TCPSession.stopped h l
  | go => exact GoTcp.Handling.stopped h l

theorem answers (p : ServerProgram) {cs : List (List UInt8)}
    (hcs : ∀ c ∈ cs, c.length < 2 ^ 32 ∧ p.takes c.length = true) :
    p.reader.endpoint.Answers p.Ended (tokens [] true) (cs.map exchange) p.start [] := by
  cases p with
  | cpp host chunkSize session => exact Tcp.TCPSession.answers hcs session
  | go => exact GoTcp.Handling.answers fun c hc => (hcs c hc).1

theorem answers_refused (p : ServerProgram) {c : List UInt8} (hb : c.length < 2 ^ 32)
    (hno : p.takes c.length = false) :
    p.reader.endpoint.Answers p.Ended (tokens [] true)
      [(tokens (lengthHeader.frame c) false, tokens [] true)] p.start [] := by
  cases p with
  | cpp host chunkSize session => exact Tcp.TCPSession.answers_refused session hb hno
  | go => cases hno

/-- What is taken is also taken if it is shorter. -/
theorem takes_of_le (p : ServerProgram) {m n : ℕ} (h : m ≤ n) (hn : p.takes n = true) :
    p.takes m = true := by
  cases p with
  | cpp host chunkSize session =>
    have hle : n ≤ chunkSize.val * 2 := of_decide_eq_true hn
    exact decide_eq_true (h.trans hle)
  | go => rfl

end ServerProgram

/-- A transfer of a file from either client to either server, the client sending the blocks of
the file: there is one end which every run goes on to, in a number of steps that does not depend
on the order in which the programs and the network act. In it nothing is under way and both
programs have ended. All chunks are verified if the server takes the lengths of all of
them, and none is if it does not. -/
theorem transfer_settles (client : ClientProgram) (server : ServerProgram) (f : File)
    (chunkSize : ChunkSize) (hsize : client.SendsBlocks chunkSize) :
    ∃ n t q l m,
      Settles (Duplex.step (client.reader chunkSize).endpoint server.reader.endpoint) n
        (Duplex.start (client.start f chunkSize) server.start) ⟨t, q, l, m, [], []⟩ ∧
      server.Ended q ∧
      ((∀ c ∈ Blocks.blocks chunkSize.val f.bytes, server.takes c.length = true) →
        client.Succeeded f chunkSize t) ∧
      (¬ (∀ c ∈ Blocks.blocks chunkSize.val f.bytes, server.takes c.length = true) →
        client.Failed f chunkSize t) := by
  have hb : ∀ c ∈ Blocks.blocks chunkSize.val f.bytes, c.length < 2 ^ 32 := fun c hc =>
    (Blocks.length_le_of_mem_blocks hc).trans_lt hsize.lt
  by_cases hall : ∀ c ∈ Blocks.blocks chunkSize.val f.bytes, server.takes c.length = true
  · obtain ⟨n, t, q, l, m, hsettles, ht, hq⟩ := Duplex.settles
      (fun t ht => ClientProgram.Succeeded.stopped ht) (fun q hq => ServerProgram.Ended.stopped hq)
      (client.asks hsize.lt) (server.answers fun c hc => ⟨hb c hc, hall c hc⟩)
    exact ⟨n, t, q, l, m, hsettles, hq, fun _ => ht, fun h => absurd hall h⟩
  · obtain ⟨c, hc, hno⟩ := by simpa only [not_forall] using hall
    have hpos := List.length_pos_of_mem hc
    have hfirst : server.takes (Blocks.blocks chunkSize.val f.bytes)[0].length = false := by
      rw [Bool.eq_false_iff]
      exact fun h => hno (server.takes_of_le (Blocks.length_le_first hc hpos) h)
    obtain ⟨n, t, q, l, m, hsettles, ht, hq⟩ := Duplex.settles
      (fun t ht => ClientProgram.Failed.stopped ht) (fun q hq => ServerProgram.Ended.stopped hq)
      (client.asks_refused hpos) (server.answers_refused (hb _ (List.getElem_mem hpos)) hfirst)
    exact ⟨n, t, q, l, m, hsettles, hq, fun h => absurd h hall, fun _ => ht⟩

/-- Three bytes in chunks of two, from a Go client to a C++ session that takes chunks of up
to four bytes. -/
theorem transfer_settles_two :
    ∃ n t q l m,
      Settles (Duplex.step (GoTcp.Round.reader).endpoint
          (Tcp.TCPSession.reader .little ⟨2, by decide, by decide⟩).endpoint) n
        (Duplex.start (GoTcp.Round.connected ⟨[1, 2, 3], by decide⟩ ⟨2, by decide, by decide⟩
            ⟨fun n => n, 0⟩)
          (Tcp.TCPSession.start ⟨⟨[9, 9, 9, 9], rfl⟩, [8, 8], ⟨[9, 9, 9, 9], rfl⟩, none⟩))
        ⟨t, q, l, m, [], []⟩ ∧
      Tcp.TCPSession.Released q ∧
      GoTcp.Round.Succeeded ⟨[1, 2, 3], by decide⟩ ⟨2, by decide, by decide⟩ t := by
  obtain ⟨n, t, q, l, m, hsettles, hended, hsucceeded, -⟩ :=
    transfer_settles (.go ⟨fun n => n, 0⟩) (.cpp .little ⟨2, by decide, by decide⟩
      ⟨⟨[9, 9, 9, 9], rfl⟩, [8, 8], ⟨[9, 9, 9, 9], rfl⟩, none⟩) ⟨[1, 2, 3], by decide⟩
      ⟨2, by decide, by decide⟩ (show 2 ≤ 2 ^ 30 by decide)
  exact ⟨n, t, q, l, m, hsettles, hended, hsucceeded (by decide)⟩

end ReversalBench
