import Mdns.Query.State
import Mdns.Dname.Expand

/-!
# The responder

The static data of `mdns_respond.c` and the packets that it builds. Addresses and ports are numbers
in host order. The flags of a service are local to the functions that use them.
-/
namespace Mdns
open Lib

/-- A C string: its bytes, none of which is zero. -/
abbrev CString := { s : List UInt8 // (0 : UInt8) ∉ s }

/-- `struct mdns_service` as the responder uses it: `keyvals` holds the strings behind their
lengths once `validate_service` has been there, and `ptrname` is the offset into `fqsn`. -/
structure Service where
  servname : CString
  servtype : CString
  port : Nat
  proto : Proto
  keyvals : Option Mem := none
  kvlen : Nat := 0
  fqsn : Mem := []
  ptrname : Nat := 0

inductive RState where
  | init
  | firstProbeSent
  | secondProbeSent
  | thirdProbeSent
  | readyToRespond
  | readyToSend
  deriving DecidableEq, Repr

/-- The static data and the locals of `do_responder`. `waiting` says that `timeout` points to
`probe_wait_time`, which is counted in milliseconds, and `running` that the loop goes on. -/
structure Responder where
  hname : CString
  domname : CString
  fqdn : Mem := []
  inAddrArpa : Mem := []
  myIpaddr : Nat
  services : List Service := []
  tx : Message
  rx : Mem
  state : RState := .init
  probeWaitTime : Nat := 0
  waiting : Bool := true
  fromAddr : Nat := 0
  fromPort : Nat := 0
  running : Bool := true

section names

/-- `reset_fqdn`. -/
def resetFqdn (r : Responder) (fqdn : Mem) : Mem := writeAt fqdn 0 (encodeName [r.hname.1, r.domname.1])

def protoLabel : Proto → List UInt8
  | .tcp => [95, 116, 99, 112]
  | .udp => [95, 117, 100, 112]

/-- The labels of a service name behind its first. -/
def Service.suffix (domname : CString) (s : Service) : Labels :=
  [underscore :: s.servtype.1, protoLabel s.proto, domname.1]

/-- `reset_fqsn`. -/
def resetFqsn (domname : CString) (s : Service) : Service :=
  { s with fqsn := writeAt s.fqsn 0 (encodeName
    (s.servname.1 :: s.suffix domname)), ptrname := s.servname.1.length + 1 }

/-- `sprintf` of a byte with `%d`. -/
def decimal (b : Nat) : List UInt8 :=
  if b < 10 then [UInt8.ofNat (48 + b)]
  else if b < 100 then [UInt8.ofNat (48 + b / 10), UInt8.ofNat (48 + b % 10)]
  else [UInt8.ofNat (48 + b / 100), UInt8.ofNat (48 + b / 10 % 10), UInt8.ofNat (48 + b % 10)]

/-- `ipaddr_to_inaddrarpa`. -/
def ipaddrToInaddrarpa (ipaddr : Nat) : Mem :=
  encodeName [decimal (ipaddr % 256), decimal (ipaddr / 256 % 256), decimal (ipaddr / 65536 % 256),
    decimal (ipaddr / 16777216 % 256), [105, 110, 45, 97, 100, 100, 114], [97, 114, 112, 97]]

end names

section packets

inductive Section where
  | questions
  | answers
  | authorities
  deriving DecidableEq, Repr

/-- The name that `ptrname` points to. -/
def Service.ptr (s : Service) : Mem := s.fqsn.drop s.ptrname

/-- The TXT record of a service that has key/value pairs: the record, then its data. -/
def txtAdds (add : Message → Mem → Nat → Nat → Nat → Option Message) (s : Service) (ttl : Nat) : List Add :=
  match s.keyvals with
  | none => []
  | some keyvals => [fun m => add m s.fqsn tTxt cFlush ttl, fun m => mdnsAddTxt m keyvals s.kvlen]

/-- `mdns_add_srv_ptr_txt`, as the calls that it makes. -/
def mdnsAddSrvPtrTxt (s : Service) (fqdn : Mem) (sec : Section) (ttl : Nat) : List Add :=
  match sec with
  | .answers =>
    [fun m => mdnsAddAnswer m s.fqsn tSrv cFlush ttl, fun m => mdnsAddSrv m 0 0 s.port fqdn,
      fun m => mdnsAddAnswer m s.ptr tPtr cFlush ttl, fun m => mdnsAddName m s.fqsn] ++ txtAdds mdnsAddAnswer s ttl
  | .authorities =>
    [fun m => mdnsAddAuthority m s.fqsn tSrv cFlush ttl, fun m => mdnsAddSrv m 0 0 s.port fqdn] ++
      txtAdds mdnsAddAuthority s ttl
  | .questions => [fun m => mdnsAddQuestion m s.fqsn tAny cIn]

/-- `responder_add_all_services`. -/
def responderAddAllServices (r : Responder) (sec : Section) (ttl : Nat) : List Add :=
  r.services.flatMap (fun s => mdnsAddSrvPtrTxt s r.fqdn sec ttl)

/-- The calls of `prepare_probe`. -/
def probeAdds (r : Responder) : List Add :=
  [fun m => mdnsAddQuestion m r.fqdn tAny cIn, fun m => mdnsAddQuestion m r.inAddrArpa tAny cIn] ++
    responderAddAllServices r .questions 0 ++
    [fun m => mdnsAddAuthority m r.fqdn tA cFlush 255, fun m => mdnsAddUint32 m r.myIpaddr,
      fun m => mdnsAddAuthority m r.inAddrArpa tPtr cFlush 255, fun m => mdnsAddName m r.fqdn] ++
    responderAddAllServices r .authorities 255

/-- `prepare_probe`. A probe that does not parse is a loop without end. -/
def prepareProbe (fuel : Nat) (r : Responder) (m : Message) : Option (Message × Int) :=
  match addAll (probeAdds r) (mdnsQueryInit m) with
  | (m, false) => some (m, -1)
  | (m, true) => match mdnsParseMessage fuel m.data m.cur with
    | .ok m => some ({ m with mend := dataMax - 1 }, 0)
    | .error _ => none

/-- The calls of `prepare_announcement`. -/
def announcementAdds (r : Responder) (ttl : Nat) : List Add :=
  [fun m => mdnsAddAnswer m r.fqdn tA cFlush ttl, fun m => mdnsAddUint32 m r.myIpaddr,
    fun m => mdnsAddAnswer m r.inAddrArpa tPtr cFlush ttl, fun m => mdnsAddName m r.fqdn] ++
    responderAddAllServices r .answers ttl

/-- `prepare_announcement`. -/
def prepareAnnouncement (r : Responder) (m : Message) (ttl : Nat) : Message × Int :=
  match addAll (announcementAdds r ttl) (mdnsResponseInit m) with
  | (m, ok) => (m, if ok then 0 else -1)

end packets

section response

def rsError : Int := -1
def rsNoSend : Int := 0

/-- The bits of a response that is to be sent, and the records that it has already. -/
structure Answering where
  tx : Message
  send : Bool := false
  sendDelay : Bool := false

/-- The two flags of a service that `prepare_response` sets. -/
structure Added where
  srv : Bool := false
  txt : Bool := false

/-- A part of `prepare_response`: it goes on, returns `RS_ERROR` with `tx` as it is then, or does
not return. -/
abbrev Reply := ExceptT Message Option

/-- A call that makes `prepare_response` return `RS_ERROR` when it fails. -/
def Answering.adds (a : Answering) (calls : List Add) : Reply Answering :=
  match addAll calls a.tx with
  | (tx, true) => pure { a with tx }
  | (tx, false) => throw tx

/-- `dname_cmp` of the question with one of our names, which has no packet of its own. -/
def asksFor (fuel : Nat) (rx : Message) (q : Question) (name : Mem) (off : Nat) : Reply Bool :=
  match dnameCmp fuel (.packet rx.data) q.qname (.plain name) off with
  | some c => pure (c = 0)
  | none => ExceptT.lift none

def answerHost (fuel : Nat) (r : Responder) (rx : Message) (q : Question) (a : Answering) : Reply Answering :=
  if q.qtype = tAny ∨ q.qtype = tA then do
    if ← asksFor fuel rx q r.fqdn 0 then
      let a ← a.adds [fun m => mdnsAddAnswer m r.fqdn tA cFlush 255, fun m => mdnsAddUint32 m r.myIpaddr]
      return { a with send := true }
    else return a
  else return a

def answerReverse (fuel : Nat) (r : Responder) (rx : Message) (q : Question) (a : Answering) : Reply Answering :=
  if q.qtype = tAny ∨ q.qtype = tPtr then do
    if ← asksFor fuel rx q r.inAddrArpa 0 then
      let a ← a.adds [fun m => mdnsAddAnswer m r.inAddrArpa tPtr cFlush 255, fun m => mdnsAddName m r.fqdn]
      return { a with send := true }
    else return a
  else return a

/-- The SRV record of a service, unless it is there. -/
def srvOnce (r : Responder) (s : Service) (added : Added) : List Add :=
  if added.srv then []
  else [fun m => mdnsAddAnswer m s.fqsn tSrv cFlush 255, fun m => mdnsAddSrv m 0 0 s.port r.fqdn]

/-- The TXT record of a service, unless it is there. -/
def txtOnce (s : Service) (added : Added) : List Add :=
  if added.txt then [] else txtAdds mdnsAddAnswer s 255

/-- A PTR or ANY question for a service: its type or its own name. The second name is compared
only if the first one is another. -/
def answerPtr (fuel : Nat) (r : Responder) (rx : Message) (q : Question) (s : Service) (a : Answering) (added : Added) :
    Reply (Answering × Added) := do
  let isType ← asksFor fuel rx q s.fqsn s.ptrname
  let isName ← if isType then pure true else asksFor fuel rx q s.fqsn 0
  if isName then
    let a ← a.adds (srvOnce r s added ++
      [fun m => mdnsAddAnswer m s.ptr tPtr cFlush 255, fun m => mdnsAddName m s.fqsn] ++ txtOnce s added)
    return ({ a with sendDelay := true }, { srv := true, txt := added.txt || s.keyvals.isSome })
  else return (a, added)

def answerSrv (fuel : Nat) (r : Responder) (rx : Message) (q : Question) (s : Service) (a : Answering) (added : Added) :
    Reply (Answering × Added) := do
  if (← asksFor fuel rx q s.fqsn 0) && !added.srv then
    let a ← a.adds (srvOnce r s added)
    return ({ a with sendDelay := true }, { added with srv := true })
  else return (a, added)

def answerTxt (fuel : Nat) (rx : Message) (q : Question) (s : Service) (a : Answering) (added : Added) :
    Reply (Answering × Added) := do
  if (← asksFor fuel rx q s.fqsn 0) && s.keyvals.isSome && !added.txt then
    let a ← a.adds (txtOnce s added)
    return ({ a with sendDelay := true }, { added with txt := true })
  else return (a, added)

def overServices (answer : Service → Answering → Added → Reply (Answering × Added)) :
    List (Service × Added) → Answering → Reply (Answering × List (Service × Added))
  | [], a => pure (a, [])
  | (s, added) :: rest, a => do
    let (a, added) ← answer s a added
    let (a, rest) ← overServices answer rest a
    return (a, (s, added) :: rest)

/-- The part of a question that is about the services. -/
def answerServices (fuel : Nat) (r : Responder) (rx : Message) (q : Question) (services : List (Service × Added))
    (a : Answering) : Reply (Answering × List (Service × Added)) :=
  if q.qtype = tAny ∨ q.qtype = tPtr then overServices (answerPtr fuel r rx q) services a
  else if q.qtype = tSrv then overServices (answerSrv fuel r rx q) services a
  else if q.qtype = tTxt then overServices (answerTxt fuel rx q) services a
  else pure (a, services)

def answerQuestions (fuel : Nat) (r : Responder) (rx : Message) :
    List Question → List (Service × Added) → Answering → Reply Answering
  | [], _, a => pure a
  | q :: qs, services, a => do
    let a ← answerHost fuel r rx q a
    let a ← answerReverse fuel r rx q a
    let (a, services) ← answerServices fuel r rx q services a
    answerQuestions fuel r rx qs services a

def Answering.ret (a : Answering) : Int := (if a.send then 1 else 0) + (if a.sendDelay then 2 else 0)

/-- `prepare_response`: the message and the return value. -/
def prepareResponse (fuel : Nat) (r : Responder) (rx tx : Message) : Option (Message × Int) :=
  if rx.qr then some (tx, rsNoSend)
  else
    let tx := mdnsResponseInit tx
    let tx := { tx with data := writeAt tx.data 0 (slice rx.data 0 2) }
    match (answerQuestions fuel r rx rx.questions (r.services.map (·, {})) { tx }).run with
    | none => none
    | some (.error tx) => some (tx, rsError)
    | some (.ok a) => some (a.tx, a.ret)

end response

section launch

/-- `max_probe_growth`. -/
def maxProbeGrowth (numServices : Nat) : Nat := 2 * 3 + 2 * 2 * numServices

/-- `max_response_growth`. -/
def maxResponseGrowth (numServices : Nat) : Nat := 2 * 3 + 4 * 2 * numServices

/-- `TAILROOM`. -/
def Message.tailroom (m : Message) : Int := (m.mend : Int) - m.cur + 1

/-- `check_max_response`: the response that is built, or `none` inside for -1. -/
def checkMaxResponse (fuel : Nat) (r : Responder) (rx tx : Message) : Option (Option Message) :=
  let adds := [fun m => mdnsAddQuestion m r.fqdn tAny cIn, fun m => mdnsAddQuestion m r.inAddrArpa tAny cIn] ++
    responderAddAllServices r .questions 0
  match addAll adds (mdnsQueryInit rx) with
  | (_, false) => some none
  | (rx, true) => match mdnsParseMessage fuel rx.data rx.cur with
    | .error .hang => none
    | .error .err => some none
    | .ok rx => do
      let (tx, ret) ← prepareResponse fuel r rx tx
      return if ret < 1 then none else some tx

inductive LaunchError where
  | inval
  | tooBig
  deriving DecidableEq, Repr

def dot : UInt8 := 46

/-- `valid_label`. -/
def validLabel (name : CString) : Bool := decide (name.1.length ≤ maxLabelLen ∧ dot ∉ name.1)

/-- The loop of `dnameify` in place, from the last character to the first: `label` is the label
that is being read and `out` what lies behind it. When all is read, the byte before the string is
looked at. -/
def dnameifyLoop (sep before : UInt8) : List UInt8 → List UInt8 → Mem → Option Mem
  | [], label, out =>
    if before = sep ∧ label = [] then none
    else if 65535 < out.length + label.length then none
    else some (dnamePutLabel label ++ out)
  | c :: cs, label, out =>
    if c = sep then
      if label = [] then none
      else if 65535 < out.length + label.length then none
      else dnameifyLoop sep before cs [] (dnamePutLabel label ++ out)
    else dnameifyLoop sep before cs (c :: label) out

/-- `dnameify` in place: the converted bytes, or `none` for -1. -/
def dnameify (before : UInt8) (name : CString) (sep : UInt8) : Option Mem :=
  dnameifyLoop sep before name.1.reverse [] []

/-- `validate_service`. `before` is the byte before `keyvals` in memory. A return value of -1 of
`dnameify` is a `kvlen` of 65535. -/
def validateService (domname : CString) (before : UInt8) (keyvals : Option CString) (s : Service) :
    Except LaunchError Service :=
  if !validLabel s.servname || !validLabel s.servtype then .error .inval
  else if s.servname.1.length + 1 + (s.servtype.1.length + 2) + 4 + (domname.1.length + 1) + 2 + 1 > maxNameLen then
    .error .tooBig
  else match keyvals with
    | none => .ok { s with keyvals := none }
    | some text => match dnameify before text colon with
      | none => .error .tooBig
      | some bytes =>
        if bytes.length % 65536 > maxKeyvalLen then .error .tooBig
        else .ok { s with keyvals := some bytes, kvlen := bytes.length % 65536 }

/-- The loop over the services in `responder_launch`. -/
def launchServices (domname : CString) : List (Service × UInt8 × Option CString) → Except LaunchError (List Service)
  | [] => .ok []
  | (s, before, keyvals) :: rest => do
    let s ← validateService domname before keyvals s
    let services ← launchServices domname rest
    return resetFqsn domname s :: services

/-- `responder_launch` up to its control socket, from the buffers as they are. -/
def responderLaunch (fuel : Nat) (ipaddr : Nat) (domain hostname : CString)
    (services : List (Service × UInt8 × Option CString)) (fqdn : Mem) (tx rx : Message) :
    Option (Except LaunchError Responder) :=
  if !validLabel hostname || !validLabel domain then some (.error .inval)
  else match launchServices domain services with
    | .error e => some (.error e)
    | .ok services => do
      let r : Responder :=
        { hname := hostname, domname := domain, inAddrArpa := ipaddrToInaddrarpa ipaddr, myIpaddr := ipaddr,
          services, tx, rx := rx.data }
      let r := { r with fqdn := resetFqdn r fqdn }
      let (probe, ret) ← prepareProbe fuel r r.tx
      if ret = -1 then return .error .tooBig
      else if (maxProbeGrowth services.length : Int) > probe.tailroom then return .error .tooBig
      else match ← checkMaxResponse fuel r rx probe with
        | none => return .error .tooBig
        | some response =>
          if (maxResponseGrowth services.length : Int) > response.tailroom then return .error .tooBig
          else return .ok { r with tx := response }

end launch

section names

-- names that the runs on fixed inputs use: `foo`, `local` and `http`
def fooName : CString := ⟨[102, 111, 111], by decide⟩

def localDomain : CString := ⟨[108, 111, 99, 97, 108], by decide⟩

def httpServtype : CString := ⟨[104, 116, 116, 112], by decide⟩

end names

end Mdns
