import Mdns.Query.Update

/-!
# The events of the querier

`update_service_cache`, `prepare_query` and the two commands: what `do_querier` does when it
wakes up.
-/
namespace Mdns
open Lib

variable {n k : Nat} {H I : Type} [AList n H I]

section cache
variable (fuel elapsed : Nat)

/-- The TXT records of the overflow instance are used up, the others stay in the message. -/
def takeTxts (p : Mem) : List Resource → ServiceInstance n k → Option (ServiceInstance n k × List Resource)
  | [], i => some (i, [])
  | r :: rs, i => do
    let c ← dnameCmp fuel (.packet p) r.name (.plain i.fqsn) 0
    if c = 0 ∧ r.ttl ≠ 0 then do
      let (i, _) ← updateTxt fuel i p r
      takeTxts p rs i
    else do
      let (i, rest) ← takeTxts p rs i
      return (i, r :: rest)

/-- Its SRV records likewise; `host` is the name in `overflow_arec` once there is one. -/
def takeSrvs (p : Mem) : List Resource → ServiceInstance n k → Option Mem →
    Option (ServiceInstance n k × Option Mem × List Resource)
  | [], i, host => some (i, host, [])
  | r :: rs, i, host => do
    let c ← dnameCmp fuel (.packet p) r.name (.plain i.fqsn) 0
    if c ≠ 0 ∨ r.ttl = 0 then do
      let (i, host, rest) ← takeSrvs p rs i host
      return (i, host, r :: rest)
    else do
      let (fqdn, _) ← dnameCopy fuel p (srvTarget r)
      takeSrvs p rs { i with port := srvPort p r } (some fqdn)

/-- The address that the message has for the overflow instance. -/
def overflowIp (m : Message) (host : Option Mem) (i : ServiceInstance n k) : Option (ServiceInstance n k) :=
  match host with
  | none => some i
  | some fqdn => do
    let found ← findFirst (fun a => do
      return (← dnameCmp fuel (.packet m.data) a.name (.plain fqdn) 0) == 0 && a.ttl != 0) m.as
    return match found with
      | none => i
      | some a => { i with ipaddr := getUint32 m.data a.rdata }

/-- The branch for an instance that the cache has no room for. -/
def overflow (q : Querier n k H I) (m : Message) (c : Fin k) (ptr : Resource) : Option (Querier n k H I × Message) := do
  match ← copyServinfo fuel { smon := some c } m ptr.rdata with
  | none => return (q, m)
  | some i => do
    let (i, txts) ← takeTxts fuel m.data m.txts i
    let (i, host, srvs) ← takeSrvs fuel m.data m.srvs i none
    let i ← overflowIp fuel m host i
    let q ← doCallback q none i .cacheFull
    return (q, { m with txts, srvs })

/-- The goodbye of a PTR record is passed on if the user knows of the instance. -/
def sayGoodbye (q : Querier n k H I) (s : Fin n) : Option (Querier n k H I) :=
  if (q.sinsts s).state = .init then some q else callbackOn q s .disappeared

/-- One PTR record. A slot whose service info cannot be copied goes back to the head of the
free list. -/
def ptrStep (st : Querier n k H I × Message) (ptr : Resource) : Option (Querier n k H I × Message) := do
  let (q, m) := st
  match ← findServiceMonitor fuel q (.packet m.data) (some ptr.name) with
  | none => return (q, m)
  | some c => match ← findServiceInstance fuel q c m ptr.rdata with
    | some s =>
      if ptr.ttl = 0 then do
        let q ← sayGoodbye q s
        let q ← cleanupSinst q s
        return (q, m)
      else return (q.setSinst s { q.sinsts s with ptrTtl := add32 (convertTtl ptr.ttl) elapsed }, m)
    | none => match q.sinstsFree with
      | s :: free => match ← copyServinfo fuel { smon := some c } m ptr.rdata with
        | none => return ((q.resetLink s).setSinst s { smon := some c }, m)
        | some i =>
          let q := { q.resetLink s with sinstsFree := free }.setSmon c
            { q.smons c with sinsts := s :: (q.smons c).sinsts }
          return (q.setSinst s { i with ptrTtl := add32 (convertTtl ptr.ttl) elapsed }, m)
      | [] => if ptr.ttl = 0 then return (q, m) else overflow fuel q m c ptr

/-- The instance that a TXT or SRV record belongs to: its name without the first label is
looked up among the monitors. -/
def sinstOf (q : Querier n k H I) (m : Message) (r : Resource) : Option (Option (Fin n)) := do
  let fqst ← dnameLabelNext fuel (.packet m.data) r.name
  match ← findServiceMonitor fuel q (.packet m.data) fqst with
  | none => return none
  | some c => findServiceInstance fuel q c m r.name

def txtStep (m : Message) (q : Querier n k H I) (r : Resource) : Option (Querier n k H I) := do
  match ← sinstOf fuel q m r with
  | none => return q
  | some s => (updateSinst fuel q s (.got (.txt m r)) elapsed).map Prod.fst

def srvStep (m : Message) (q : Querier n k H I) (r : Resource) : Option (Querier n k H I) := do
  match ← sinstOf fuel q m r with
  | none => return q
  | some s => (updateSinst fuel q s (.got (.srv m r)) elapsed).map Prod.fst

def aStep (m : Message) (q : Querier n k H I) (r : Resource) : Option (Querier n k H I) := do
  match ← findArec fuel q m r.name with
  | none => return q
  | some a => updateArecRx q a m r

/-- `update_service_cache`. -/
def updateServiceCache (q : Querier n k H I) (m : Message) : Option (Querier n k H I) :=
  if m.qr then do
    let (q, m) ← runAll (ptrStep fuel elapsed) m.ptrs (q, m)
    let q ← runAll (txtStep fuel elapsed m) m.txts q
    let q ← runAll (srvStep fuel elapsed m) m.srvs q
    runAll (aStep fuel m) m.as q
  else some q

end cache

section prepare
variable (elapsed : Nat)

/-- `ptr_size`. The name is passed on as a C string. -/
def ptrSize (i : ServiceInstance n k) : Nat := (i.servname.takeWhile (· ≠ 0)).length + 15

/-- `add_known_answers`, which stops where the next answer does not fit. -/
def addKnownAnswers (offset : Nat) : List (ServiceInstance n k) → Message → Message
  | [], m => m
  | i :: is, m =>
    if i.ptrTtl = 0 then addKnownAnswers offset is m
    else if (ptrSize i : Int) > (m.mend : Int) - m.cur + 1 then m
    else
      let m := (mdnsAddAnswerO m offset tPtr cIn (i.ptrTtl / 1000)).getD m
      addKnownAnswers offset is ((mdnsAddNameLo m (i.servname.takeWhile (· ≠ 0)) offset).getD m)

/-- What the loops of `prepare_query` carry along: the state, the number of questions and the
time of the next event. -/
structure Sched (n k : Nat) (H : Type := List (Fin n)) (I : Type := Unit) where
  q : Querier n k H I
  ret : Int
  next : Nat

def arecSched (st : Sched n k H I) (a : Fin n) : Option (Sched n k H I) := do
  let (q, ret) ← updateArecAdd st.q a elapsed
  return ⟨q, st.ret + ret, min st.next (q.arecs a).nextRefresh⟩

def sinstSched (st : Sched n k H I) (s : Fin n) : Option (Sched n k H I) := do
  let (q, ret) ← updateSinst 0 st.q s .addQuestions elapsed
  return ⟨q, st.ret + ret, min st.next (q.sinsts s).nextRefresh⟩

/-- A monitor that is due: its period doubles, up to 60 s. -/
def ServiceMonitor.refresh (mon : ServiceMonitor n) (offset : Nat) : ServiceMonitor n :=
  { mon with nextRefresh := 0, fqstOffset := offset,
             refreshPeriod := if mon.refreshPeriod > 30000 then 60000 else mon.refreshPeriod * 2 }

/-- The refresh of one monitor; the inner `none` is the question that does not fit. -/
def refreshMonitor (st : Sched n k H I) (c : Fin k) : Sched n k H I × Option (Sched n k H I) :=
  let mon := st.q.smons c
  if mon.nextRefresh ≤ elapsed then
    let due := mon.refresh st.q.tx.cur
    let st₁ : Sched n k H I := ⟨st.q.setSmon c due, st.ret, st.next⟩
    match mdnsAddQuestion st.q.tx mon.fqst tAny cIn with
    | none => (st₁, none)
    | some tx => (st₁, some ⟨{ st.q with tx }.setSmon c due, st.ret + 1, st.next⟩)
  else
    let left := subtract mon.nextRefresh elapsed
    let st₁ : Sched n k H I := ⟨st.q.setSmon c { mon with nextRefresh := left }, st.ret, min st.next left⟩
    (st₁, some st₁)

/-- The loop over the monitors; it is left with `false` when a question does not fit. -/
def queryMonitors : List (Fin k) → Sched n k H I → Option (Sched n k H I × Bool)
  | [], st => some (st, true)
  | c :: cs, st => match refreshMonitor elapsed st c with
    | (st, none) => some (st, false)
    | (_, some st) => do
      let st ← runAll (sinstSched elapsed) (st.q.smons c).sinsts st
      queryMonitors cs st

/-- The second pass over the monitors that are due. -/
def answerMonitor (st : Sched n k H I) (c : Fin k) : Sched n k H I :=
  let mon := st.q.smons c
  if mon.nextRefresh = 0 then
    let tx := addKnownAnswers mon.fqstOffset (mon.sinsts.map st.q.sinsts) st.q.tx
    ⟨{ st.q with tx }.setSmon c { mon with nextRefresh := mon.refreshPeriod }, st.ret,
      min st.next mon.refreshPeriod⟩
  else st

/-- `prepare_query`: the state, the return code and the time to the next event. -/
def prepareQuery (q : Querier n k H I) : Option (Sched n k H I) := do
  let st : Sched n k H I := ⟨{ q with tx := mdnsQueryInit q.tx }, 0, uint32Max⟩
  let st ← runAll (arecSched elapsed) st.q.arecsActive st
  let (st, all) ← queryMonitors elapsed st.q.smonsActive st
  if all then
    if st.ret = 0 then return st
    else
      let st := st.q.smonsActive.foldl answerMonitor st
      return { st with ret := if st.ret > 0 then 1 else 0 }
  else return { st with ret := -1 }

end prepare

section commands
variable (fuel : Nat)

/-- `add_service`. The slot is filled from the command and gets a session of its own. -/
def addService (q : Querier n k H I) (fqst : Mem) : Option (Querier n k H I) := do
  match ← findServiceMonitor fuel q (.plain fqst) (some 0) with
  | some _ => return q
  | none => match q.smonsFree with
    | [] => return q
    | c :: free =>
      let mon := { fqst, refreshPeriod := 1000, session := q.sessions }
      return { q with smonsFree := free, smonsActive := c :: q.smonsActive, sessions := q.sessions + 1 }.setSmon c mon

/-- A monitor is taken off the active list, its instances are cleaned up and its slot is free. -/
def closeMonitor (q : Querier n k H I) (c : Fin k) : Option (Querier n k H I) := do
  let active ← slistRemove c q.smonsActive
  let q := { q with smonsActive := active }
  let q ← runAll cleanupSinst (q.smons c).sinsts q
  return { q with smonsFree := c :: q.smonsFree }

/-- `remove_service`; the empty name stands for all services. -/
def removeService (q : Querier n k H I) (fqst : Mem) : Option (Querier n k H I) := do
  if byte fqst 0 = 0 then runAll closeMonitor q.smonsActive q
  else match ← findServiceMonitor fuel q (.plain fqst) (some 0) with
    | none => return q
    | some c => closeMonitor q c

end commands

inductive Event where
  | monitor (fqst : Mem)
  | unmonitor (fqst : Mem)
  | response (data : Mem) (mlen elapsed : Nat)
  | prepare (elapsed : Nat)

/-- What `do_querier` does on an event. -/
def step (fuel : Nat) (q : Querier n k H I) : Event → Option (Querier n k H I)
  | .monitor fqst => addService fuel q fqst
  | .unmonitor fqst => removeService fuel q fqst
  | .response data mlen elapsed => match mdnsParseMessage fuel data mlen with
    | .ok m => updateServiceCache fuel elapsed q m
    | .error .err => some q
    | .error .hang => none
  | .prepare elapsed => (prepareQuery elapsed q).map Sched.q

end Mdns
