import Mdns.Dname.Walk
import Mdns.Lib.Fuel

/-!
# Messages and the parser of `mdns.c`

The build is the little-endian one of the Makefile with the query API. Names and record data are
offsets into the message's own buffer.
-/
namespace Mdns
open Lib

def dataMax : Nat := 1472
def headerSize : Nat := 12
def maxQuestions : Nat := 32
def maxAnswers : Nat := 32
def maxAuthorities : Nat := 32

def tA : Nat := 1
def tCname : Nat := 5
def tPtr : Nat := 12
def tTxt : Nat := 16
def tSrv : Nat := 33
def tAny : Nat := 255

def cIn : Nat := 1
def cFlush : Nat := 0x8001

structure Question where
  qname : Nat
  qtype : Nat
  qclass : Nat
  deriving DecidableEq, Repr

structure Resource where
  name : Nat
  type : Nat
  cls : Nat
  ttl : Nat
  rdlength : Nat
  rdata : Nat
  deriving DecidableEq, Repr

/-- `struct mdns_message`. `mend` is the last byte of the message; the lists `as`, `srvs`,
`txts` and `ptrs` hold the records that the parser sorts by type, last one first. -/
structure Message where
  data : Mem
  mend : Nat
  cur : Nat
  numQuestions : Nat := 0
  numAnswers : Nat := 0
  numAuthorities : Nat := 0
  questions : List Question := []
  answers : List Resource := []
  authorities : List Resource := []
  as : List Resource := []
  srvs : List Resource := []
  txts : List Resource := []
  ptrs : List Resource := []
  deriving DecidableEq, Repr

/-- `CHECK_TAILROOM`. The cursor never passes `end + 1`, so the checks against an unsigned
size and those against an `int` are the same comparison. -/
def checkTailroom (m : Message) (l : Int) : Res Unit :=
  if (m.mend : Int) - m.cur + 1 < l then .error .err else .ok ()

/-- The check of a name at the cursor, the same for questions and resources: its own bytes
fit, and following it does not leave the packet. The cursor moves past its own bytes. -/
def takeName (fuel : Nat) (m : Message) : Res Message := do
  let len ← await (dnameSize fuel m.data m.cur)
  if len = 0 ∨ len = -1 ∨ len > maxNameLen then .error .err
  else do
    checkTailroom m len
    let overrun ← await (dnameOverrun fuel m.data m.mend m.cur)
    if overrun then .error .err else .ok { m with cur := m.cur + len.toNat }

/-- One round of the question loop of `mdns_parse_message`. -/
def parseQuestion (fuel : Nat) (m : Message) : Res (Question × Message) := do
  let qname := m.cur
  let m ← takeName fuel m
  checkTailroom m 4
  return ({ qname, qtype := getUint16 m.data m.cur, qclass := getUint16 m.data (m.cur + 2) },
    { m with cur := m.cur + 4 })

/-- The loop over one section: `parse` is run once for each entry. -/
def parseMany {α : Type} (parse : Message → Res (α × Message)) : Nat → Message → Res (List α × Message)
  | 0, m => .ok ([], m)
  | n+1, m => do
    let (a, m) ← parse m
    let (as, m) ← parseMany parse n m
    return (a :: as, m)

/-- The validation of the record data: the data of an SRV is checked from its first byte. -/
def checkRdata (fuel : Nat) (m : Message) (r : Resource) : Res Unit :=
  if r.type = tA then
    if r.rdlength ≠ 4 then .error .err else .ok ()
  else if r.type = tSrv ∨ r.type = tPtr then do
    let overrun ← await (dnameOverrun fuel m.data m.mend r.rdata)
    if overrun then .error .err else .ok ()
  else .ok ()

/-- `SLIST_INSERT_HEAD` on the list of the record's type. -/
def sortRecord (m : Message) (r : Resource) : Message :=
  if r.type = tA then { m with as := r :: m.as }
  else if r.type = tSrv then { m with srvs := r :: m.srvs }
  else if r.type = tTxt then { m with txts := r :: m.txts }
  else if r.type = tPtr then { m with ptrs := r :: m.ptrs }
  else m

/-- `parse_resource`. -/
def parseResource (fuel : Nat) (m : Message) : Res (Resource × Message) := do
  let name := m.cur
  let m ← takeName fuel m
  checkTailroom m 10
  let r : Resource :=
    { name, type := getUint16 m.data m.cur, cls := getUint16 m.data (m.cur + 2),
      ttl := getUint32 m.data (m.cur + 4), rdlength := getUint16 m.data (m.cur + 8), rdata := m.cur + 10 }
  let m := { m with cur := m.cur + 10 }
  checkTailroom m r.rdlength
  let m := { m with cur := m.cur + r.rdlength }
  checkRdata fuel m r
  return (r, sortRecord m r)

/-- The two flag bytes change places when the parser stores the flags in host order. -/
def swapFlags (data : Mem) : Mem :=
  slice data 0 2 ++ [data.getD 3 0, data.getD 2 0] ++ data.drop 4

def Message.qr (m : Message) : Bool := decide (128 ≤ byte m.data 3)

/-- The opcode of a message whose flags are in host order. -/
def opcode (data : Mem) : Nat := byte data 3 / 8 % 16

/-- The message before its first section is parsed. -/
def startMessage (data : Mem) (mlen : Nat) : Message :=
  { data := swapFlags data, mend := mlen - 1, cur := headerSize,
    numQuestions := min (getUint16 data 4) maxQuestions,
    numAnswers := min (getUint16 data 6) maxAnswers,
    numAuthorities := min (getUint16 data 8) maxAuthorities }

/-- `mdns_parse_message` on the first `mlen` bytes of a buffer. -/
def mdnsParseMessage (fuel : Nat) (data : Mem) (mlen : Nat) : Res Message :=
  if mlen < headerSize then .error .err
  else
    let m := startMessage data mlen
    if opcode m.data ≠ 0 then .error .err
    else do
      let (questions, m) ← parseMany (parseQuestion fuel) m.numQuestions m
      let (answers, m) ← parseMany (parseResource fuel) m.numAnswers { m with questions }
      let (authorities, m) ← parseMany (parseResource fuel) m.numAuthorities { m with answers }
      return { m with authorities }

end Mdns
