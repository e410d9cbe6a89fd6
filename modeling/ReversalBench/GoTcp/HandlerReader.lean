import ReversalBench.Tcp.SessionReader
import ReversalBench.GoTcp.Server

/-! The goroutine that handles one connection of the Go server, as a program on that
connection. It goes on when a whole message has come or the client has closed the
connection; a message of which only a part has come keeps it in its read. -/

namespace ReversalBench.GoTcp

open Tcp (lengthHeader exchange)
open Reader (tokens)

/-- A message that has come completely stays the next one. -/
theorem next_append {l p r : List UInt8} (h : lengthHeader.next (fun _ => true) l = some (p, r))
    (m : List UInt8) : lengthHeader.next (fun _ => true) (l ++ m) = some (p, r ++ m) := by
  obtain ⟨hb, hok, rfl⟩ := HeaderCode.next_eq_some_iff.mp h
  exact HeaderCode.next_eq_some_iff.mpr ⟨hb, hok, List.append_assoc _ _ _⟩

/-- What was read is as long whatever comes after it. -/
theorem length_append_sub_append (l r m : List UInt8) :
    (l ++ m).length - (r ++ m).length = l.length - r.length := by
  rw [List.length_append, List.length_append, Nat.add_sub_add_right]

/-- A read of a message can be finished with what has come. -/
def wholeMessage (l : List UInt8) : Bool := (lengthHeader.next (fun _ => true) l).isSome

theorem wholeMessage_iff {l : List UInt8} :
    wholeMessage l = true ↔ ∃ p r, lengthHeader.next (fun _ => true) l = some (p, r) := by
  rw [wholeMessage, Option.isSome_iff_exists, Prod.exists]

theorem wholeMessage_append {l : List UInt8} (h : wholeMessage l = true) (m : List UInt8) :
    wholeMessage (l ++ m) = true := by
  obtain ⟨p, r, hn⟩ := wholeMessage_iff.mp h
  exact wholeMessage_iff.mpr ⟨p, r ++ m, next_append hn m⟩

theorem next_whole {p : List UInt8} (hb : p.length < 2 ^ 32) :
    lengthHeader.next (fun _ => true) (lengthHeader.frame p) = some (p, []) :=
  HeaderCode.next_eq_some_iff.mpr ⟨Tcp.lengthHeader_bound ▸ hb, rfl, (List.append_nil _).symm⟩

namespace Handling

/-- One round of the handler; when it returns the connection is closed. -/
def proceed (s : Option Returned) (l : List UInt8) :
    Option (Effect (Option Returned) UInt8 × Bool) :=
  (next segmentConn ⟨⟨[l], []⟩, s⟩).map fun h =>
    (⟨h.returned, l.length - h.conn.incoming.flatten.length, h.conn.outgoing⟩,
      h.returned.isSome)

theorem proceed_frame {l p r : List UInt8}
    (h : lengthHeader.next (fun _ => true) l = some (p, r)) :
    proceed none l =
      some (⟨none, l.length - r.length, lengthHeader.frame p.reverse⟩, false) := by
  have hflat : lengthHeader.next (fun _ => true) (Conn.mk [l] []).incoming.flatten =
      some (p, r) := by rwa [List.flatten_singleton]
  obtain ⟨segs, hnext, rfl⟩ := next_frame hflat
  rw [start] at hnext
  simp only [proceed, hnext, Option.map_some, start, List.nil_append, Option.isSome_none]

/-- The handler as a program that reads the stream of its client. -/
def reader : Reader (Option Returned) UInt8 where
  enough _ := wholeMessage
  next := proceed
  consumed_le {s l r} h := by
    obtain ⟨c, -, rfl⟩ := Option.map_eq_some_iff.mp h
    exact Nat.sub_le _ _
  eager {s l} h m := by
    refine ⟨wholeMessage_append h m, ?_⟩
    cases s with
    | some returned => rfl
    | none =>
      obtain ⟨p, r, hn⟩ := wholeMessage_iff.mp h
      rw [proceed_frame hn, proceed_frame (next_append hn m), length_append_sub_append]

theorem stopped {s : Option Returned} (h : s.isSome = true) (l : List (Option UInt8)) :
    reader.endpoint.step s l = none := by
  obtain ⟨returned, rfl⟩ := Option.isSome_iff_exists.mp h
  exact Reader.step_eq_none (fun _ => rfl) l

theorem turn_frame {p : List UInt8} (hb : p.length < 2 ^ 32) :
    reader.endpoint.Turn none (exchange p).1 (exchange p).2 none (tokens [] false) := by
  have hturn := Reader.turn_single (R := reader) (wholeMessage_iff.mpr ⟨p, [], next_whole hb⟩)
    (proceed_frame (next_whole hb))
  rwa [List.length_nil, Nat.sub_zero, List.drop_length] at hturn

/-- Where the client closes the connection between two messages, the handler returns. -/
theorem turn_end :
    ∃ err l, reader.endpoint.Turn none (tokens [] true) (tokens [] true) (some err) l := by
  obtain ⟨err, segs, hnext⟩ := @next_stop ⟨[[]], []⟩ rfl
  have hproceed : reader.next none [] = some (⟨some (.readFailed err), 0, []⟩, true) := by
    rw [start] at hnext
    simp only [reader, proceed, hnext, Option.map_some, List.length_nil, Nat.zero_sub,
      Option.isSome_some]
  exact ⟨_, _, Reader.turn_ended hproceed⟩

/-- The handler answers chunks until the client closes the connection. -/
theorem answers {cs : List (List UInt8)} (hcs : ∀ c ∈ cs, c.length < 2 ^ 32) :
    reader.endpoint.Answers (fun s => s.isSome = true) (tokens [] true) (cs.map exchange) none
      (tokens [] false) := by
  induction cs with
  | nil =>
    obtain ⟨err, l, hturn⟩ := turn_end
    exact ⟨_, some err, l, hturn, rfl⟩
  | cons c cs ih =>
    obtain ⟨hb, hrest⟩ := List.forall_mem_cons.mp hcs
    exact ⟨none, [], turn_frame hb, ih hrest⟩

end Handling

end ReversalBench.GoTcp
