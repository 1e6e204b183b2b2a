import Mdns.Respond.Growth
import Mdns.Respond.Run

/-!
# Delivery of responses

Each query that is to be answered gets its response once, at the port that it came from, if nothing
from another port comes in while a response is put off: there is one variable for the sender of the
last packet.
-/
namespace Mdns
open Lib List Option

/-- The responder, the responses that it owes and the packets that it has sent so far. -/
structure Served where
  r : Responder
  answers : List Packet := []
  sent : List Packet := []

/-- The response to a query for which `prepare_response` returns more than `RS_NO_SEND`, with the
port that the query comes from. -/
def answerTo (fuel : Nat) (r : Responder) (w : Wait) : Option Packet :=
  match w.arrival with
  | .packet d => match recvPacket fuel (r.waits w) d with
    | some (r, some rx) => match prepareResponse fuel r rx r.tx with
      | some (tx, ret) => if ret ≤ rsNoSend then none else some (mdnsSendMsg tx d.port)
      | none => none
    | _ => none
  | _ => none

def serve (fuel : Nat) (s : Served) (w : Wait) : Option Served :=
  (responderRound fuel s.r w).map fun (r, out) =>
    { r, answers := s.answers ++ (answerTo fuel s.r w).toList, sent := s.sent ++ out }

/-- A round without a control message. If a packet comes in, its pointers do not lead the parser round in a circle,
and while a response is put off it comes from the port of the packet before it. -/
def Served.Undisturbed (s : Served) (w : Wait) : Prop :=
  w.ctrl = none ∧ ∀ d, w.arrival = .packet d →
    NoCycle (swapFlags (s.r.filled d)) ((d.bytes.take dataMax).length - 1)
      (nameFields (s.r.filled d) (d.bytes.take dataMax).length) ∧
    (s.r.state = .readyToSend → d.port = s.r.fromPort)

section step
variable {fuel : Nat} {s s' : Served} {w : Wait} {d : Datagram} {r r' : Responder} {out due : List Packet}

/-- What is still to be sent goes to the port that `from` has. -/
inductive Due : Responder → List Packet → Prop where
  | nothing {r : Responder} (h : r.state = .readyToRespond) : Due r []
  | one {r : Responder} (h : r.state = .readyToSend) (hwait : r.waiting = true) : Due r [mdnsSendMsg r.tx r.fromPort]

theorem Due.congr (h : Due r due) (hstate : r'.state = r.state) (hwait : r'.waiting = r.waiting) (htx : r'.tx = r.tx)
    (hport : r.state = .readyToSend → r'.fromPort = r.fromPort) : Due r' due := by
  cases h with
  | nothing h => exact .nothing (hstate.trans h)
  | one h hw =>
    rw [← htx, ← hport h]
    exact .one (hstate.trans h) (hwait.trans hw)

theorem Due.state (h : Due r due) : r.state = .readyToRespond ∨ r.state = .readyToSend := by
  cases h with
  | nothing h => exact .inl h
  | one h _ => exact .inr h

/-- What `do_responder` does with the response that `prepare_response` has built: `EVENT_RX` in the two states that
it is called in. -/
def Responder.reply (r : Responder) (w : Wait) (x : Message × Int) : Responder × List Packet :=
  let pending := if r.state = .readyToSend then [mdnsSendMsg r.tx r.fromPort] else []
  let idle := if r.state = .readyToSend then { r with waiting := false, state := .readyToRespond } else r
  if x.2 ≤ rsNoSend then ({ idle with tx := x.1 }, pending)
  else if 2 ≤ x.2 then (delayResponse { r with tx := x.1 } w, pending)
  else ({ idle with tx := x.1 }, pending ++ [mdnsSendMsg x.1 r.fromPort])

theorem Due.reply (h : Due r due) (x : Message × Int) :
    ∃ due', Due (r.reply w x).1 due' ∧
      due ++ (if x.2 ≤ rsNoSend then none else some (mdnsSendMsg x.1 r.fromPort)).toList = (r.reply w x).2 ++ due' := by
  unfold Responder.reply
  cases h with
  | nothing h =>
    rw [h]
    simp only [reduceCtorEq, if_false]
    split_ifs
    · exact ⟨[], .nothing h, rfl⟩
    · exact ⟨_, .one rfl rfl, rfl⟩
    · exact ⟨[], .nothing h, rfl⟩
  | one h hwait =>
    rw [h]
    simp only [if_true]
    split_ifs
    · exact ⟨[], .nothing rfl, rfl⟩
    · exact ⟨_, .one rfl rfl, rfl⟩
    · exact ⟨[], .nothing rfl, rfl⟩

theorem Due.onTimeout (h : Due r due) :
    ∃ waiting state, Due { r with waiting, state } [] ∧ ∀ fuel,
      Mdns.onTimeout fuel r = some ({ r with waiting, state }, due) := by
  cases h with
  | nothing h =>
    refine ⟨r.waiting, r.state, .nothing h, ?_⟩
    intro fuel
    unfold Mdns.onTimeout
    rw [h]
    simp only [← h]
  | one h hwait =>
    refine ⟨false, .readyToRespond, .nothing rfl, ?_⟩
    intro fuel
    unfold Mdns.onTimeout
    rw [h]

/-- The round of a packet that `recvfrom` and the parser have made a message of, or not. -/
def Served.received (fuel : Nat) (s : Served) (w : Wait) : Responder × Option Message → Option Served
  | (r, none) => some { s with r }
  | (r, some m) => prepareResponse fuel r m r.tx >>= fun x =>
    some { r := (r.reply w x).1, sent := s.sent ++ (r.reply w x).2,
           answers := s.answers ++ (if x.2 ≤ rsNoSend then none else some (mdnsSendMsg x.1 r.fromPort)).toList }

end step

section runs

end runs

end Mdns
