import Mdns.Build
import Mdns.Lib.Fold
import Mathlib.Logic.Function.Basic

/-!
# The state of the querier

The static data of `mdns_query.c`; pointers to slots are their indices. A linked list whose elements
are on no other list through the same link is the list of its elements.

The lists of the A records all go through the one link `alist_item` of an instance, which
`update_srv` can leave on a list when it forgets the A record. The code is therefore written over an
`AList`, and has two readings: with the links of the source, and with a list of its own for each A
record. `Query/Links` says when they agree.

Two fields are not the source's: the log of the callbacks, newest first, and the number of
monitoring sessions begun.
-/
namespace Mdns
open Lib
open Function (update)

inductive ARecState where
  | init
  | querying
  | resolved
  deriving DecidableEq, Repr

inductive SinstState where
  | init
  | clean
  | updating
  deriving DecidableEq, Repr

/-- Whether the user has been told of an instance in this state. -/
def SinstState.shown : SinstState → Bool
  | .init => false
  | .clean => true
  | .updating => true

/-- The status codes of a callback. -/
inductive Status where
  | discovered
  | disappeared
  | updated
  | cacheFull
  deriving DecidableEq, Repr

inductive Proto where
  | tcp
  | udp
  deriving DecidableEq, Repr

/-- The macros of `queue.h` on the lists of the A records. `H` is the head in the A record, `I` is what all instances
have of the links, and `reset` is the `memset` of an instance. -/
class AList (n : outParam Nat) (H I : Type) where
  nil : H
  unlinked : I
  isEmpty : H → Bool
  insertHead : Fin n → H → I → H × I
  remove : Fin n → H → I → Option (H × I)
  reset : Fin n → I → I
  forEach {σ : Type} : (σ → I) → (σ → Fin n → Option σ) → H → σ → Option σ
  forEachSafe {σ : Type} : (σ → I) → (σ → Fin n → Option σ) → H → σ → Option σ

/-- `struct arec`. -/
structure ARec (n : Nat) (H : Type := List (Fin n)) where
  sinsts : H
  ipaddr : Nat := 0
  ttl : Nat := 0
  fqdn : Mem := []
  state : ARecState := .init
  nextRefresh : Nat := 0
  ttlPercent : Nat := 0

/-- `struct service_instance` with the `struct mdns_service` in it. `hasA` and `hasSrv` are the
two ready flags; `keyvals` is `none` while the pointer is NULL. The defaults are what
`reset_service_instance` leaves. -/
structure ServiceInstance (n k : Nat) where
  fqsn : Mem := []
  servname : List UInt8 := []
  servtype : List UInt8 := []
  proto : Proto := .udp
  domain : List UInt8 := []
  port : Nat := 0
  ipaddr : Nat := 0
  keyvals : Option (List UInt8) := none
  rawkeyvals : List UInt8 := List.replicate (maxKeyvalLen + 1) 0
  rawkvlen : Nat := 0
  hasA : Bool := false
  hasSrv : Bool := false
  arec : Option (Fin n) := none
  ptrTtl : Nat := 0
  srvTtl : Nat := 1000
  srvTtl0 : Nat := 1000
  nextRefresh : Nat := 0
  ttlPercent : Nat := 20
  state : SinstState := .init
  smon : Option (Fin k) := none

/-- `struct service_monitor`. -/
structure ServiceMonitor (n : Nat) where
  sinsts : List (Fin n) := []
  fqst : Mem := []
  fqstOffset : Nat := 0
  refreshPeriod : Nat := 0
  nextRefresh : Nat := 0
  session : Nat := 0

/-- What a callback passes to the user, with the slot (none for the overflow instance), the
session and whether the instance is ready. -/
structure Report (n : Nat) where
  slot : Option (Fin n)
  ready : Bool
  session : Nat
  fqsn : Mem
  servname : List UInt8
  servtype : List UInt8
  proto : Proto
  domain : List UInt8
  status : Status
  port : Nat
  ipaddr : Nat
  keyvals : Option (List UInt8)

/-- The static data. `alist` are the links `alist_item` of all instances. -/
structure Querier (n k : Nat) (H : Type := List (Fin n)) (I : Type := Unit) where
  sinsts : Fin n → ServiceInstance n k
  sinstsFree : List (Fin n)
  alist : I
  arecs : Fin n → ARec n H
  arecsActive : List (Fin n)
  arecsFree : List (Fin n)
  smons : Fin k → ServiceMonitor n
  smonsActive : List (Fin k)
  smonsFree : List (Fin k)
  tx : Message
  sessions : Nat
  log : List (Report n)

variable {n k : Nat} {H I : Type}

def Querier.setSinst (q : Querier n k H I) (s : Fin n) (i : ServiceInstance n k) : Querier n k H I :=
  { q with sinsts := update q.sinsts s i }

def Querier.setArec (q : Querier n k H I) (a : Fin n) (r : ARec n H) : Querier n k H I :=
  { q with arecs := update q.arecs a r }

def Querier.setSmon (q : Querier n k H I) (c : Fin k) (m : ServiceMonitor n) : Querier n k H I :=
  { q with smons := update q.smons c m }

/-- The `memset` of an instance takes in its link. -/
def Querier.resetLink [AList n H I] (q : Querier n k H I) (s : Fin n) : Querier n k H I :=
  { q with alist := AList.reset H s q.alist }

/-- `SLIST_REMOVE`; `none` is the walk off the end of a list that does not have the element. -/
def slistRemove {α : Type} [DecidableEq α] (x : α) (l : List α) : Option (List α) :=
  if x ∈ l then some (l.erase x) else none

/-- The links `alist_item`. A walk whose body may change the links is given up after `fuel` rounds. -/
structure Links (fuel n : Nat) where
  next : Fin n → Option (Fin n)

namespace Links
variable {fuel : Nat} {σ : Type} (links : σ → Links fuel n) (body : σ → Fin n → Option σ)

/-- The element in front of `s`. One that is not met among the `n` elements never is, and at the end of the list a
NULL pointer is followed. -/
def before (l : Links fuel n) (s : Fin n) : Nat → Option (Fin n) → Option (Fin n)
  | 0, _ => none
  | _ + 1, none => none
  | rounds + 1, some t => if l.next t = some s then some t else l.before s rounds (l.next t)

/-- `SLIST_FOREACH` takes the link after the body. -/
def each : Nat → Option (Fin n) → σ → Option σ
  | _, none, st => some st
  | 0, some _, _ => none
  | rounds + 1, some s, st => do
    let st ← body st s
    each rounds ((links st).next s) st

/-- `SLIST_FOREACH_SAFE` takes it before. -/
def eachSafe : Nat → Option (Fin n) → σ → Option σ
  | _, none, st => some st
  | 0, some _, _ => none
  | rounds + 1, some s, st => do
    let rest := (links st).next s
    let st ← body st s
    eachSafe rounds rest st

end Links

/-- The lists of the source. -/
instance {fuel : Nat} : AList n (Option (Fin n)) (Links fuel n) where
  nil := none
  unlinked := ⟨fun _ => none⟩
  isEmpty := Option.isNone
  insertHead s head l := (some s, ⟨update l.next s head⟩)
  remove s head l :=
    if head = some s then some (l.next s, l)
    else (l.before s n head).map (fun t => (head, ⟨update l.next t (l.next s)⟩))
  reset s l := ⟨update l.next s none⟩
  forEach links body head st := Links.each links body fuel head st
  forEachSafe links body head st := Links.eachSafe links body fuel head st

/-- A list of its own for each A record. -/
instance : AList n (List (Fin n)) Unit where
  nil := []
  unlinked := ()
  isEmpty := List.isEmpty
  insertHead s l _ := (s :: l, ())
  remove s l _ := (slistRemove s l).map (·, ())
  reset _ _ := ()
  forEach _ body l st := runAll body l st
  forEachSafe _ body l st := runAll body l st

/-- `SERVICE_IS_READY`. -/
def ServiceInstance.isReady (i : ServiceInstance n k) : Bool := i.hasA && i.hasSrv

/-- `SUBTRACT`, `ADD` and `CONVERT_TTL` saturate; a plain product wraps. -/
def subtract (a b : Nat) : Nat := if a > b then a - b else 0
def add32 (a b : Nat) : Nat := if a > uint32Max - b then uint32Max else a + b
def convertTtl (ttl : Nat) : Nat := if ttl > uint32Max / 1000 then uint32Max else ttl * 1000
def percent (ttl p : Nat) : Nat := ttl * p % 2 ^ 32 / 100

/-- `DO_CALLBACK`. -/
def doCallback (q : Querier n k H I) (slot : Option (Fin n)) (i : ServiceInstance n k) (status : Status) :
    Option (Querier n k H I) := do
  let c ← i.smon
  let report : Report n :=
    { slot, ready := i.isReady, session := (q.smons c).session, fqsn := i.fqsn, servname := i.servname,
      servtype := i.servtype, proto := i.proto, domain := i.domain, status, port := i.port, ipaddr := i.ipaddr,
      keyvals := i.keyvals }
  return { q with log := report :: q.log }

/-- `query_launch`. Inserted at the head one by one, the last slot is the first free one. -/
def queryLaunch (n k : Nat) (H : Type := List (Fin n)) (I : Type := Unit) [AList n H I] : Querier n k H I :=
  { sinsts := fun _ => {}, sinstsFree := (List.finRange n).reverse, alist := AList.unlinked H,
    arecs := fun _ => { sinsts := AList.nil I }, arecsActive := [], arecsFree := (List.finRange n).reverse,
    smons := fun _ => {}, smonsActive := [], smonsFree := (List.finRange k).reverse,
    tx := { data := List.replicate dataMax 0, mend := 0, cur := 0 }, sessions := 0, log := [] }

end Mdns
