import Mdns.Respond.Conflict
import Mdns.Lib.Fold

/-!
# The responder thread

One round of the loop of `do_responder`: the wait in `select`, then the control message, the
packet or the timeout. On Linux `select` leaves in the timeout the time that it has not waited.
-/
namespace Mdns
open Lib

section clock

/-- `interval`: the difference of two times of a 32 bit clock. -/
def interval (start stop : Nat) : Nat := if stop ≥ start then stop - start else uint32Max - start + stop

/-- `recalc_timeout`: the new timeout. -/
def recalcTimeout (start stop target : Nat) : Nat :=
  if target ≤ interval start stop then 0 else target - interval start stop

end clock

structure Datagram where
  addr : Nat
  port : Nat
  bytes : Mem
  deriving DecidableEq, Repr

inductive Arrival where
  | nothing
  | failed
  | packet (d : Datagram)
  deriving DecidableEq, Repr

structure Ctrl where
  msg : Int
  addr : Nat
  port : Nat
  deriving DecidableEq, Repr

def ctrlHalt : Int := 0

/-- What one round is given: the clock before the wait, the length of the wait, what the two sockets
have and the draw of `mdns_rand_range`. -/
structure Wait where
  start : Nat
  waited : Nat
  ctrl : Option Ctrl := none
  arrival : Arrival := .nothing
  rand : Nat := 0
  deriving DecidableEq, Repr

def Wait.stop (w : Wait) : Nat := (w.start + w.waited) % 4294967296

structure Packet where
  bytes : Mem
  port : Nat
  deriving DecidableEq, Repr

def mdnsPort : Nat := 5353

/-- `mdns_send_msg`: the bytes up to the cursor. -/
def mdnsSendMsg (m : Message) (port : Nat) : Packet := { bytes := slice m.data 0 m.cur, port }

/-- `process_probe_resp`. -/
def processProbeResp (fuel : Nat) (r : Responder) (rx : Message) (w : Wait) : Option Responder := do
  let (r, ret) ← fixResponseConflicts fuel r rx r.tx
  return if ret = 1 then { r with probeWaitTime := 0, state := .init }
    else if ret = -1 then { r with probeWaitTime := 5000, state := .init }
    else { r with probeWaitTime := recalcTimeout w.start w.stop 250 }

/-- A packet in one of the three states after a probe. One of our own does not set `timeout` in the
last of them. -/
def probeStateRx (fuel : Nat) (r : Responder) (rx : Message) (w : Wait) : Option Responder :=
  if r.fromAddr ≠ r.myIpaddr then do
    let r ← processProbeResp fuel r rx w
    return { r with waiting := true }
  else
    some { r with probeWaitTime := recalcTimeout w.start w.stop 250,
                  waiting := r.waiting || decide (r.state ≠ .thirdProbeSent) }

/-- The response that `prepare_response` has built is put off. -/
def delayResponse (r : Responder) (w : Wait) : Responder :=
  { r with probeWaitTime := w.rand + 20, waiting := true, state := .readyToSend }

/-- `EVENT_RX`. -/
def onRx (fuel : Nat) (r : Responder) (rx : Message) (w : Wait) : Option (Responder × List Packet) :=
  match r.state with
  | .init => some ({ r with probeWaitTime := recalcTimeout w.start w.stop 250, waiting := true }, [])
  | .firstProbeSent | .secondProbeSent | .thirdProbeSent => do
    let r ← probeStateRx fuel r rx w
    return (r, [])
  | .readyToRespond => do
    let (tx, ret) ← prepareResponse fuel r rx r.tx
    let r := { r with tx }
    return if ret ≤ rsNoSend then (r, [])
      else if 2 ≤ ret then (delayResponse r w, [])
      else (r, [mdnsSendMsg r.tx r.fromPort])
  | .readyToSend => do
    -- the packet that has come in has changed `from` by now
    let pending := mdnsSendMsg r.tx r.fromPort
    let (tx, ret) ← prepareResponse fuel r rx r.tx
    let r := { r with tx }
    return if ret ≤ rsNoSend then ({ r with waiting := false, state := .readyToRespond }, [pending])
      else if 2 ≤ ret then (delayResponse r w, [pending])
      else ({ r with waiting := false, state := .readyToRespond }, [pending, mdnsSendMsg r.tx r.fromPort])

/-- `EVENT_TIMEOUT`. What `prepare_probe` returns is not looked at. -/
def onTimeout (fuel : Nat) (r : Responder) : Option (Responder × List Packet) :=
  match r.state with
  | .init => do
    let (tx, _) ← prepareProbe fuel r r.tx
    return ({ r with tx, probeWaitTime := 250, waiting := true, state := .firstProbeSent }, [mdnsSendMsg tx mdnsPort])
  | .firstProbeSent =>
    some ({ r with probeWaitTime := 250, waiting := true, state := .secondProbeSent }, [mdnsSendMsg r.tx mdnsPort])
  | .secondProbeSent =>
    some ({ r with probeWaitTime := 250, waiting := true, state := .thirdProbeSent }, [mdnsSendMsg r.tx mdnsPort])
  | .thirdProbeSent =>
    match prepareAnnouncement r r.tx 255 with
    | (tx, ret) =>
      some (if ret ≠ 0 then ({ r with tx }, [])
        else ({ r with tx, waiting := false, state := .readyToRespond }, [mdnsSendMsg tx mdnsPort]))
  | .readyToRespond => some (r, [])
  | .readyToSend => some ({ r with waiting := false, state := .readyToRespond }, [mdnsSendMsg r.tx r.fromPort])

def onHalt (r : Responder) : Responder × List Packet :=
  match prepareAnnouncement r r.tx 0 with
  | (tx, ret) => ({ r with tx, running := false }, if ret ≠ 0 then [] else [mdnsSendMsg tx mdnsPort])

/-- The receive buffer once the bytes of a packet that it has room for are in it. -/
def Responder.filled (r : Responder) (d : Datagram) : Mem := writeAt r.rx 0 (d.bytes.take dataMax)

/-- `mdns_parse_message` on a packet. -/
def Responder.parse (fuel : Nat) (r : Responder) (d : Datagram) : Res Message :=
  mdnsParseMessage fuel (r.filled d) (d.bytes.take dataMax).length

/-- `recvfrom` of a packet and the parser. When the parser fails, only the flags have changed
places. -/
def recvPacket (fuel : Nat) (r : Responder) (d : Datagram) : Option (Responder × Option Message) :=
  match r.parse fuel d with
  | .ok m => some ({ r with fromAddr := d.addr, fromPort := d.port, rx := m.data }, some m)
  | .error .err =>
    let data := if (d.bytes.take dataMax).length < headerSize then r.filled d else swapFlags (r.filled d)
    some ({ r with fromAddr := d.addr, fromPort := d.port, rx := data }, none)
  | .error .hang => none

/-- `select` has changed the timeout that it was given. -/
def Responder.waits (r : Responder) (w : Wait) : Responder :=
  if r.waiting then { r with probeWaitTime := r.probeWaitTime - w.waited } else r

/-- A control message changes `from` as well. -/
def Responder.hears (r : Responder) (ctrl : Option Ctrl) : Responder :=
  match ctrl with
  | none => r
  | some c => { r with fromAddr := c.addr, fromPort := c.port }

/-- One round of `do_responder`. -/
def responderRound (fuel : Nat) (r : Responder) (w : Wait) : Option (Responder × List Packet) :=
  if !r.running then some (r, [])
  else
    let r := (r.waits w).hears w.ctrl
    if w.ctrl.map Ctrl.msg = some ctrlHalt then some (onHalt r)
    else match w.arrival with
      | .nothing => onTimeout fuel r
      | .failed => some (r, [])
      | .packet d => do
        let (r, rx) ← recvPacket fuel r d
        match rx with
        | none => return (r, [])
        | some rx => onRx fuel r rx w

def startResponder (r : Responder) (rand : Nat) : Responder :=
  { r with state := .init, probeWaitTime := rand, waiting := true, running := true }

section rounds
variable {fuel : Nat} {r r' : Responder} {d : Datagram} {w : Wait} {out : List Packet}

theorem recvPacket_cases {rx : Option Message} (h : recvPacket fuel r d = some (r', rx)) :
    ∃ buf, r' = { r with fromAddr := d.addr, fromPort := d.port, rx := buf } ∧
      ((∃ m, r.parse fuel d = .ok m ∧ rx = some m) ∨ (r.parse fuel d = .error .err ∧ rx = none)) := by
  unfold recvPacket at h
  split at h
  · next m heq =>
    cases h
    exact ⟨_, rfl, .inl ⟨m, heq, rfl⟩⟩
  · next heq =>
    cases h
    exact ⟨_, rfl, .inr ⟨heq, rfl⟩⟩
  · cases h

theorem responderRound_packet (hrun : r.running = true) (hctrl : w.ctrl = none) (hrx : w.arrival = .packet d)
    (h : responderRound fuel r w = some (r', out)) :
    ∃ r1 rx, recvPacket fuel (r.waits w) d = some (r1, rx) ∧
      ((rx = none ∧ r' = r1 ∧ out = []) ∨ ∃ m, rx = some m ∧ onRx fuel r1 m w = some (r', out)) := by
  unfold responderRound at h
  rw [hrun, hctrl, hrx] at h
  obtain ⟨⟨r1, rx⟩, hrecv, h⟩ := Option.bind_eq_some_iff.mp h
  refine ⟨r1, rx, hrecv, ?_⟩
  cases rx with
  | none =>
    cases h
    exact .inl ⟨rfl, rfl, rfl⟩
  | some m => exact .inr ⟨m, rfl, h⟩

end rounds

end Mdns
