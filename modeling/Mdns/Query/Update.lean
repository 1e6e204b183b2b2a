import Mdns.Query.State
import Mdns.Lib.Fold

/-!
# The two state machines of the querier

The functions of `mdns_query.c` on one service instance and on one A record. `none` is a call that
does not return, a NULL pointer that is followed, or a failed `ASSERT` of the debug build.
-/
namespace Mdns
open Lib

variable {n k : Nat} {H I : Type} [AList n H I]

/-- The first element for which the call returns true, in list order. -/
def findFirst {α : Type} (p : α → Option Bool) : List α → Option (Option α)
  | [] => some none
  | x :: xs => do
    if ← p x then return some x
    else findFirst p xs

/-- `dname_cmp(NULL, name, p, at) == 0`. -/
def sameName (fuel : Nat) (name : Mem) (p : Src) (off : Nat) : Option Bool :=
  (dnameCmp fuel (.plain name) 0 p off).map (· == 0)

/-- `find_service_monitor`; a NULL name is followed as soon as there is a monitor to compare. -/
def findServiceMonitor (fuel : Nat) (q : Querier n k H I) (p : Src) (fqst : Option Nat) : Option (Option (Fin k)) :=
  findFirst (fun c => do sameName fuel (q.smons c).fqst p (← fqst)) q.smonsActive

/-- `find_service_instance`. -/
def findServiceInstance (fuel : Nat) (q : Querier n k H I) (c : Fin k) (m : Message) (fqsn : Nat) :
    Option (Option (Fin n)) :=
  findFirst (fun s => sameName fuel (q.sinsts s).fqsn (.packet m.data) fqsn) (q.smons c).sinsts

/-- `find_arec`. -/
def findArec (fuel : Nat) (q : Querier n k H I) (m : Message) (fqdn : Nat) : Option (Option (Fin n)) :=
  findFirst (fun a => sameName fuel (q.arecs a).fqdn (.packet m.data) fqdn) q.arecsActive

/-- The instance is taken off the list of its A record, and a record without instances moves
to the free list. -/
def leaveArec (q : Querier n k H I) (s a : Fin n) : Option (Querier n k H I) := do
  let (refs, alist) ← AList.remove s (q.arecs a).sinsts q.alist
  let q := { q with alist }.setArec a { q.arecs a with sinsts := refs }
  if AList.isEmpty I refs then do
    let active ← slistRemove a q.arecsActive
    return { q with arecsActive := active, arecsFree := a :: q.arecsFree }
  else return q

def leaveHost (q : Querier n k H I) (s : Fin n) : Option (Querier n k H I) :=
  match (q.sinsts s).arec with
  | none => some q
  | some a => leaveArec q s a

/-- `cleanup_sinst`. -/
def cleanupSinst (q : Querier n k H I) (s : Fin n) : Option (Querier n k H I) := do
  let c ← (q.sinsts s).smon
  let members ← slistRemove s (q.smons c).sinsts
  let q ← leaveHost (q.setSmon c { q.smons c with sinsts := members }) s
  return { q with sinstsFree := s :: q.sinstsFree }.setSinst s { q.sinsts s with nextRefresh := uint32Max }

/-- `copy_servinfo`; the inner `none` is the -1. -/
def copyServinfo (fuel : Nat) (i : ServiceInstance n k) (m : Message) (fqsn : Nat) :
    Option (Option (ServiceInstance n k)) := do
  let (name, ret) ← dnameCopy fuel m.data fqsn
  if ret = -1 then return none
  else match ← dnameLabelToC fuel m.data fqsn true with
    | none => return none
    | some (servname, typeAt) => match ← dnameLabelToC fuel m.data typeAt false with
      | none => return none
      | some (servtype, protoAt) => do
        let isTcp ← dnameLabelCmp fuel (.plain (dnamePutLabel [95, 116, 99, 112])) 0 (.packet m.data) protoAt
        let isUdp ← dnameLabelCmp fuel (.plain (dnamePutLabel [95, 117, 100, 112])) 0 (.packet m.data) protoAt
        if isTcp ≠ 0 ∧ isUdp ≠ 0 then return none
        else match ← dnameLabelNext fuel (.packet m.data) protoAt with
          | none => return none
          | some domainAt => match ← dnameLabelToC fuel m.data domainAt false with
            | none => return none
            | some (domain, _) =>
              let proto := if isTcp = 0 then Proto.tcp else Proto.udp
              return (some { i with fqsn := name, servname, servtype, proto, domain })

/-- `update_txt`. The text is written to `keyvals` without counting its colons, so that a long
one runs over into `rawkeyvals`, which follows it. -/
def updateTxt (fuel : Nat) (i : ServiceInstance n k) (p : Mem) (r : Resource) :
    Option (ServiceInstance n k × Int) :=
  let known := min r.rdlength i.rawkvlen
  if i.keyvals = none ∨ (r.rdlength ≠ i.rawkvlen ∧ r.rdlength < maxKeyvalLen + 1) ∨
      slice p r.rdata known ≠ i.rawkeyvals.take known then do
    let len := min r.rdlength (maxKeyvalLen + 1)
    let text ← txtToCNcpy fuel (maxKeyvalLen + 1) p r.rdata r.rdlength
    let raw := writeAt i.rawkeyvals 0 (slice p r.rdata len)
    return ({ i with rawkeyvals := writeAt raw 0 ((text ++ [0]).drop (maxKeyvalLen + 1)), rawkvlen := len,
                     keyvals := some text }, 1)
  else return (i, 0)

/-- The first part of `set_arec`: an instance with an A record is taken off its list. The number
is 1 when it was another record. -/
def takeOff (q : Querier n k H I) (s a : Fin n) : Option (Querier n k H I × Int) :=
  match (q.sinsts s).arec with
  | none => some (q, 0)
  | some old => do
    let (refs, alist) ← AList.remove s (q.arecs old).sinsts q.alist
    return ({ q with alist }.setArec old { q.arecs old with sinsts := refs }, if old ≠ a then 1 else 0)

/-- The second part: a resolved record gives its address. -/
def takeAddress (i : ServiceInstance n k) (arec : ARec n H) : ServiceInstance n k :=
  if arec.state = .resolved then { i with ipaddr := arec.ipaddr, hasA := true } else { i with hasA := false }

/-- `set_arec`. -/
def setArec (q : Querier n k H I) (s a : Fin n) : Option (Querier n k H I × Int) := do
  let (q, moved) ← takeOff q s a
  let i := takeAddress (q.sinsts s) (q.arecs a)
  let ret := if i.ipaddr ≠ (q.sinsts s).ipaddr then 1 else moved
  let (refs, alist) := AList.insertHead s (q.arecs a).sinsts q.alist
  let q := { q with alist }.setArec a { q.arecs a with sinsts := refs }
  return (q.setSinst s { i with arec := some a }, ret)

/-- The two bytes of the port as a number. The source keeps them as they are, in network order. -/
def srvPort (p : Mem) (r : Resource) : Nat := getUint16 p (r.rdata + 4)

def srvTarget (r : Resource) : Nat := r.rdata + 6

/-- The part of `update_srv` that makes sure of an A record; a full cache leaves the instance
without one. -/
def hostSrv (fuel : Nat) (q : Querier n k H I) (s : Fin n) (m : Message) (r : Resource) :
    Option (Querier n k H I × Int) := do
  match ← findArec fuel q m (srvTarget r) with
  | some a => setArec q s a
  | none => match q.arecsFree with
    | [] => return (q.setSinst s { q.sinsts s with arec := none }, 0)
    | a :: free => do
      let (fqdn, _) ← dnameCopy fuel m.data (srvTarget r)
      setArec ({ q with arecsFree := free, arecsActive := a :: q.arecsActive }.setArec a
        { sinsts := AList.nil I, fqdn }) s a

/-- The times of an instance whose SRV record has come. -/
def srvTimes (i : ServiceInstance n k) (r : Resource) (elapsed : Nat) : ServiceInstance n k :=
  { i with srvTtl := add32 (convertTtl r.ttl) elapsed, srvTtl0 := convertTtl r.ttl, ttlPercent := 20,
           nextRefresh := add32 (percent (convertTtl r.ttl) 80) elapsed, hasSrv := true }

/-- `update_srv`. -/
def updateSrv (fuel : Nat) (q : Querier n k H I) (s : Fin n) (m : Message) (r : Resource) (elapsed : Nat) :
    Option (Querier n k H I × Int) :=
  if r.ttl = 0 then do
    let q ← cleanupSinst q s
    return (q, -1)
  else do
    let ported : Int := if (q.sinsts s).port ≠ srvPort m.data r then 1 else 0
    let (q, moved) ← hostSrv fuel (q.setSinst s { q.sinsts s with port := srvPort m.data r }) s m r
    return (q.setSinst s (srvTimes (q.sinsts s) r elapsed), if ported + moved > 0 then 1 else 0)

def ServiceInstance.age (i : ServiceInstance n k) (elapsed : Nat) : ServiceInstance n k :=
  { i with ptrTtl := subtract i.ptrTtl elapsed, srvTtl := subtract i.srvTtl elapsed,
           nextRefresh := subtract i.nextRefresh elapsed }

def ServiceInstance.reschedule (i : ServiceInstance n k) : ServiceInstance n k :=
  { i with nextRefresh := percent i.srvTtl0 (if i.ttlPercent = 20 then 80 else i.ttlPercent),
           ttlPercent := i.ttlPercent / 2 }

/-- `apply_elapsed`. A question that does not fit is not asked, but its time has passed. -/
def applyElapsed (q : Querier n k H I) (s : Fin n) (elapsed : Nat) : Option (Querier n k H I × Int) :=
  let i := (q.sinsts s).age elapsed
  if i.nextRefresh = 0 then
    if i.ttlPercent < 5 then do
      let q ← cleanupSinst (q.setSinst s i) s
      return (q, -1)
    else match mdnsAddQuestion q.tx i.fqsn tAny cIn with
      | none => return (q.setSinst s i.reschedule, 0)
      | some tx => return ({ q with tx }.setSinst s i.reschedule, 1)
  else return (q.setSinst s i, 0)

/-- A record for an instance, or the address of its A record. -/
inductive News (n : Nat) where
  | txt (m : Message) (r : Resource)
  | srv (m : Message) (r : Resource)
  | arec (a : Fin n)

/-- The events of an instance, with the arguments that each of them uses. -/
inductive SinstEvent (n : Nat) where
  | got (u : News n)
  | lostArec
  | addQuestions

/-- The updates of `update_sinst` that do not depend on the state. -/
def sinstChanges (fuel : Nat) (q : Querier n k H I) (s : Fin n) (e : SinstEvent n) (elapsed : Nat) :
    Option (Querier n k H I × Int) :=
  match e with
  | .got (.srv m r) => updateSrv fuel q s m r elapsed
  | .got (.txt m r) => do
    let (i, ret) ← updateTxt fuel (q.sinsts s) m.data r
    return (q.setSinst s i, ret)
  | .got (.arec a) => setArec q s a
  | .lostArec => some (q, 0)
  | .addQuestions => some (q, 0)

def Querier.setState (q : Querier n k H I) (s : Fin n) (state : SinstState) : Querier n k H I :=
  q.setSinst s { q.sinsts s with state }

def callbackOn (q : Querier n k H I) (s : Fin n) (status : Status) : Option (Querier n k H I) :=
  doCallback q (some s) (q.sinsts s) status

/-- The part of `update_sinst` that decides on the state. -/
def sinstReact (q : Querier n k H I) (s : Fin n) (e : SinstEvent n) (changes : Int) (elapsed : Nat) :
    Option (Querier n k H I × Int) :=
  match (q.sinsts s).state with
  | .init => match e with
    | .lostArec => do
      let q ← cleanupSinst q s
      return (q, changes)
    | .addQuestions => do
      let (q, ret) ← applyElapsed q s elapsed
      return (q, if ret = -1 then 0 else ret)
    | .got _ =>
      if changes ≤ 0 then return (q, changes)
      else if (q.sinsts s).isReady then do
        let q ← callbackOn q s .discovered
        return (q.setState s .clean, changes)
      else return (q, changes)
  | .clean => match e with
    | .lostArec => do
      let q ← cleanupSinst q s
      let q ← callbackOn q s .disappeared
      return (q, changes)
    | .addQuestions => do
      let (q, ret) ← applyElapsed q s elapsed
      if ret = -1 then do
        let q ← callbackOn q s .disappeared
        return (q, 0)
      else if ret = 1 then
        return ((q.setSinst s { q.sinsts s with hasSrv := false }).setState s .updating, 1)
      else return (q, 0)
    | .got _ =>
      if changes = 0 then return (q, changes)
      else if changes = -1 then do
        let q ← callbackOn q s .disappeared
        return (q, changes)
      else if (q.sinsts s).isReady then do
        let q ← callbackOn q s .updated
        return (q, changes)
      else return (q.setState s .updating, changes)
  | .updating => match e with
    | .lostArec => do
      let q ← cleanupSinst q s
      let q ← callbackOn q s .disappeared
      return (q, changes)
    | .addQuestions => do
      let (q, ret) ← applyElapsed q s elapsed
      if ret = -1 then do
        let q ← callbackOn q s .disappeared
        return (q, 0)
      else return (q, ret)
    | .got _ =>
      if changes = 0 then return (q, changes)
      else if changes = -1 then do
        let q ← callbackOn q s .disappeared
        return (q, changes)
      else if (q.sinsts s).isReady then do
        let q ← callbackOn q s .updated
        return (q.setState s .clean, changes)
      else return (q, changes)

/-- `update_sinst`; the result is 1 when a query is to be sent. -/
def updateSinst (fuel : Nat) (q : Querier n k H I) (s : Fin n) (e : SinstEvent n) (elapsed : Nat) :
    Option (Querier n k H I × Int) := do
  let (q, changes) ← sinstChanges fuel q s e elapsed
  let (q, changes) ← sinstReact q s e changes elapsed
  return (q, if changes > 0 then 1 else 0)

/-- `update_sinst` for an event of the A record, which needs no message and no time. -/
def alertSinst (e : SinstEvent n) (q : Querier n k H I) (s : Fin n) : Option (Querier n k H I) :=
  (updateSinst 0 q s e 0).map Prod.fst

/-- A new address is passed on to the instances that are on the list at its beginning: one that
is taken off and put back at the head is not met again. -/
def alertIp (q : Querier n k H I) (a : Fin n) (ipaddr : Nat) : Option (Querier n k H I) :=
  if (q.arecs a).ipaddr = ipaddr then some q
  else AList.forEachSafe Querier.alist (alertSinst (.got (.arec a))) (q.arecs a).sinsts
    (q.setArec a { q.arecs a with ipaddr })

/-- `set_ip`. -/
def setIp (q : Querier n k H I) (a : Fin n) (m : Message) (r : Resource) : Option (Querier n k H I) := do
  let q ← alertIp q a (getUint32 m.data r.rdata)
  let ttl := convertTtl r.ttl
  return q.setArec a { q.arecs a with ttl, nextRefresh := percent ttl 80, ttlPercent := 10 }

/-- `evict_arec`. The instances are those on the list at its beginning: each is taken off it,
but keeps its link to the next. -/
def evictArec (q : Querier n k H I) (a : Fin n) : Option (Querier n k H I) := do
  let q ← AList.forEach Querier.alist (alertSinst .lostArec) (q.arecs a).sinsts q
  if AList.isEmpty I (q.arecs a).sinsts then return q.setArec a { q.arecs a with nextRefresh := uint32Max }
  else none

/-- The time of an A record goes on, and its next question comes when so much of its TTL has
passed. -/
def ARec.age (r : ARec n H) (elapsed : Nat) : ARec n H := { r with nextRefresh := subtract r.nextRefresh elapsed }

def ARec.launch (r : ARec n H) : ARec n H :=
  { r with state := .querying, ttl := 1000, nextRefresh := percent 1000 80, ttlPercent := 10 }

def ARec.retry (r : ARec n H) : ARec n H :=
  { r with ttlPercent := r.ttlPercent / 2, nextRefresh := percent r.ttl (r.ttlPercent / 2) }

def ARec.refresh (r : ARec n H) : ARec n H :=
  { r with ttlPercent := 10, nextRefresh := percent r.ttl 10, state := .querying }

/-- The questions of `update_arec` are asked with whatever room there is. -/
def askArec (q : Querier n k H I) (a : Fin n) (r : ARec n H) : Querier n k H I :=
  { q with tx := (mdnsAddQuestion q.tx r.fqdn tA cIn).getD q.tx }.setArec a r

/-- `update_arec` on `AREC_EVENT_RX_REC`. -/
def updateArecRx (q : Querier n k H I) (a : Fin n) (m : Message) (r : Resource) : Option (Querier n k H I) :=
  if r.ttl = 0 then evictArec q a
  else setIp (q.setArec a { q.arecs a with state := .resolved }) a m r

/-- `update_arec` on `AREC_EVENT_ADD_QUESTIONS`; the result is 1 when a query is to be sent. -/
def updateArecAdd (q : Querier n k H I) (a : Fin n) (elapsed : Nat) : Option (Querier n k H I × Int) :=
  match (q.arecs a).state with
  | .init => some (askArec q a (q.arecs a).launch, 1)
  | .querying =>
    let r := (q.arecs a).age elapsed
    if r.nextRefresh = 0 ∧ r.ttlPercent < 5 then do
      let q ← evictArec (q.setArec a r) a
      return (q, 0)
    else if r.nextRefresh = 0 then some (askArec q a r.retry, 1)
    else some (q.setArec a r, 0)
  | .resolved =>
    let r := (q.arecs a).age elapsed
    if r.nextRefresh = 0 then some (askArec q a r.refresh, 1)
    else some (q.setArec a r, 0)

end Mdns
