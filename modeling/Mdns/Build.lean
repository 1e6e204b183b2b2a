import Mdns.Message

/-!
# Building messages

The `mdns_add_*` functions of `mdns.c`. A name that is added lies in memory of its own
without pointers, so `dname_size` ends within it. `none` is the -1 of a message that is full and
stays as it was.
-/
namespace Mdns
open Lib

def uint32Max : Nat := 4294967295

/-- `dname_size` of a name in memory of its own. -/
def nameSize (name : Mem) : Nat :=
  match dnameSize (name.length + 1) name 0 with
  | some len => len.toNat % 65536
  | none => 0

/-- The bytes that `memcpy` takes from such a name. -/
def nameBytes (name : Mem) : List UInt8 := slice name 0 (nameSize name)

/-- The flag bytes of a response on the wire: QR and AA are set. -/
def responseFlags : List UInt8 := [0x84, 0]

/-- `mdns_query_init`. -/
def mdnsQueryInit (m : Message) : Message :=
  { m with data := writeAt m.data 0 (List.replicate headerSize 0), mend := dataMax - 1, cur := headerSize,
           numQuestions := 0, numAnswers := 0, numAuthorities := 0 }

/-- `mdns_response_init`. -/
def mdnsResponseInit (m : Message) : Message :=
  let m := mdnsQueryInit m
  { m with data := writeAt m.data 2 responseFlags }

def Message.put (m : Message) (bs : List UInt8) : Message :=
  { m with data := writeAt m.data m.cur bs, cur := m.cur + bs.length }

/-- `CHECK_TAILROOM` before `bs` is stored. -/
def Message.putChecked (m : Message) (bs : List UInt8) : Option Message :=
  if (m.mend : Int) - m.cur + 1 < bs.length then none else some (m.put bs)

/-- A 16 bit counter of the header goes up by one, in network order. -/
def countUp (data : Mem) (off : Nat) : Mem := writeAt data off (setUint16 (getUint16 data off + 1))

/-- `__mdns_add_tuple`. -/
def mdnsAddTuple (m : Message) (name : Mem) (type cls ttl : Nat) : Option Message :=
  m.putChecked (nameBytes name ++ setUint16 type ++ setUint16 cls ++
    if ttl = uint32Max then [] else setUint32 ttl)

/-- `mdns_add_question`. -/
def mdnsAddQuestion (m : Message) (qname : Mem) (qtype qclass : Nat) : Option Message := do
  let m ← mdnsAddTuple m qname qtype qclass uint32Max
  return { m with data := countUp m.data 4, numQuestions := m.numQuestions + 1 }

def Message.countAnswer (m : Message) : Message :=
  { m with data := countUp m.data 6, numAnswers := m.numAnswers + 1 }

/-- `mdns_add_answer`. -/
def mdnsAddAnswer (m : Message) (name : Mem) (type cls ttl : Nat) : Option Message := do
  let m ← mdnsAddTuple m name type cls ttl
  return m.countAnswer

/-- `mdns_add_answer_lo`: the name is a label and a pointer to its suffix. -/
def mdnsAddAnswerLo (m : Message) (label : List UInt8) (offset type cls ttl : Nat) : Option Message := do
  let m ← m.putChecked (dnamePutLabel label ++ setUint16 (0xC000 ||| offset) ++ setUint16 type ++
    setUint16 cls ++ setUint32 ttl)
  return m.countAnswer

/-- `mdns_add_answer_o`: the name is a pointer to an offset of the message. -/
def mdnsAddAnswerO (m : Message) (offset type cls ttl : Nat) : Option Message := do
  let m ← m.putChecked (setUint16 (0xC000 ||| offset) ++ setUint16 type ++ setUint16 cls ++ setUint32 ttl)
  return m.countAnswer

/-- `mdns_add_authority`. -/
def mdnsAddAuthority (m : Message) (name : Mem) (type cls ttl : Nat) : Option Message := do
  let m ← mdnsAddTuple m name type cls ttl
  return { m with data := countUp m.data 8, numAuthorities := m.numAuthorities + 1 }

/-- `mdns_add_uint32`. -/
def mdnsAddUint32 (m : Message) (i : Nat) : Option Message := m.putChecked (setUint16 4 ++ setUint32 i)

/-- `mdns_add_name`. -/
def mdnsAddName (m : Message) (name : Mem) : Option Message :=
  m.putChecked (setUint16 (nameSize name) ++ nameBytes name)

/-- `mdns_add_name_lo`: a leading label and a pointer to the suffix. -/
def mdnsAddNameLo (m : Message) (label : List UInt8) (offset : Nat) : Option Message :=
  m.putChecked (setUint16 (label.length + 3) ++ dnamePutLabel label ++ setUint16 (0xC000 ||| offset))

/-- `mdns_add_txt`: the first `len` bytes of `txt`. -/
def mdnsAddTxt (m : Message) (txt : Mem) (len : Nat) : Option Message := m.putChecked (setUint16 len ++ slice txt 0 len)

/-- `mdns_add_srv`. -/
def mdnsAddSrv (m : Message) (priority weight port : Nat) (target : Mem) : Option Message :=
  m.putChecked (setUint16 (nameSize target + 6) ++ setUint16 priority ++ setUint16 weight ++
    setUint16 port ++ nameBytes target)

/-- One of the functions above, on its own data. -/
abbrev Add := Message → Option Message

/-- Calls in a row, up to the first that returns -1: the message as they leave it, and whether all
of them returned 0. -/
def addAll : List Add → Message → Message × Bool
  | [], m => (m, true)
  | add :: adds, m => match add m with
    | some m => addAll adds m
    | none => (m, false)

end Mdns
