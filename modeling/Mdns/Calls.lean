import Mdns.Respond.State
import Mdns.Wire

/-!
# The stores of a call

The `mdns_add_*` functions store by store, so that a call that fails leaves whatever it has stored
before. A call has stored all of its bytes, or it has changed nothing.
-/
namespace Mdns
open Lib List

section statements

/-- The platforms differ in the width of `size_t` and `ptrdiff_t`. -/
inductive SizeT where
  | bits32
  | bits64

def SizeT.modulus : SizeT → Nat
  | .bits32 => 4294967296
  | .bits64 => 18446744073709551616

/-- The conversion of an integer to `size_t`. -/
def SizeT.of (z : SizeT) (i : Int) : Nat := (i % z.modulus).toNat

/-- Statements on a message. An early `return -1` keeps the message as it is then. -/
abbrev Build := EStateM Unit Message

/-- `CHECK_TAILROOM` with a size that is an `int`. -/
def checkRoom (l : Int) : Build Unit := do
  let m ← get
  if (m.mend : Int) - m.cur + 1 < l then throw ()

/-- `CHECK_TAILROOM` with a size that is a `size_t`: the room is converted. -/
def checkRoomSize (z : SizeT) (l : Int) : Build Unit := do
  let m ← get
  if z.of ((m.mend : Int) - m.cur + 1) < z.of l then throw ()

def store (bs : Mem) : Build Unit := modify fun m => { m with data := writeAt m.data m.cur bs }

/-- `m->cur += n`. -/
def advance (n : Nat) : Build Unit := modify fun m => { m with cur := m.cur + n }

def questionCounted (m : Message) : Message :=
  { m with data := countUp m.data 4, numQuestions := (m.numQuestions + 1) % 65536 }

def answerCounted (m : Message) : Message :=
  { m with data := countUp m.data 6, numAnswers := (m.numAnswers + 1) % 65536 }

def authorityCounted (m : Message) : Message :=
  { m with data := countUp m.data 8, numAuthorities := (m.numAuthorities + 1) % 65536 }

/-- `dname_size` of a name in memory of its own. -/
def sizeOfName (name : Mem) : Int := (dnameSize (name.length + 1) name 0).getD 0

end statements

section functions
variable (z : SizeT)

/-- `__mdns_add_tuple`. -/
def addTuple (name : Mem) (type cls ttl : Nat) : Build Unit := do
  let len := (sizeOfName name % 65536).toNat
  let size := if ttl = uint32Max then len + 4 else len + 4 + 4
  checkRoom size
  store (slice name 0 len)
  advance len
  store (setUint16 type)
  advance 2
  store (setUint16 cls)
  advance 2
  if ttl ≠ uint32Max then
    store (setUint32 ttl)
    advance 4

/-- `mdns_add_question`. -/
def addQuestion (qname : Mem) (qtype qclass : Nat) : Build Unit := do
  addTuple qname qtype qclass uint32Max
  modify questionCounted

/-- `mdns_add_answer`. -/
def addAnswer (name : Mem) (type cls ttl : Nat) : Build Unit := do
  addTuple name type cls ttl
  modify answerCounted

/-- `mdns_add_answer_lo`. -/
def addAnswerLo (label : List UInt8) (offset type cls ttl : Nat) : Build Unit := do
  let len := label.length % 65536
  checkRoom (len + 4 + 4 + 3)
  store [UInt8.ofNat len]
  advance 1
  store (slice label 0 len)
  advance len
  store (setUint16 (0xC000 ||| offset))
  advance 2
  store (setUint16 type)
  advance 2
  store (setUint16 cls)
  advance 2
  store (setUint32 ttl)
  advance 4
  modify answerCounted

/-- `mdns_add_answer_o`. -/
def addAnswerO (offset type cls ttl : Nat) : Build Unit := do
  checkRoom 10
  store (setUint16 (0xC000 ||| offset))
  advance 2
  store (setUint16 type)
  advance 2
  store (setUint16 cls)
  advance 2
  store (setUint32 ttl)
  advance 4
  modify answerCounted

/-- `mdns_add_authority`. -/
def addAuthority (name : Mem) (type cls ttl : Nat) : Build Unit := do
  addTuple name type cls ttl
  modify authorityCounted

/-- `mdns_add_uint32`. -/
def addUint32 (i : Nat) : Build Unit := do
  checkRoomSize z 6
  store (setUint16 4)
  advance 2
  store (setUint32 i)
  advance 4

/-- `mdns_add_name`. -/
def addName (name : Mem) : Build Unit := do
  let len := sizeOfName name
  checkRoomSize z (len + 2)
  store (setUint16 len.toNat)
  advance 2
  store (slice name 0 len.toNat)
  advance len.toNat

/-- `mdns_add_name_lo`. -/
def addNameLo (label : List UInt8) (offset : Nat) : Build Unit := do
  let len := label.length
  checkRoomSize z (len + 1 + 4)
  store (setUint16 (len + 1 + 2))
  advance 2
  store [UInt8.ofNat len]
  advance 1
  store (slice label 0 len)
  advance len
  store (setUint16 (0xC000 ||| offset))
  advance 2

/-- `mdns_add_txt`. -/
def addTxt (txt : Mem) (len : Nat) : Build Unit := do
  checkRoomSize z (len + 2)
  store (setUint16 len)
  advance 2
  store (slice txt 0 len)
  advance len

/-- `mdns_add_srv`. -/
def addSrv (priority weight port : Nat) (target : Mem) : Build Unit := do
  let len := sizeOfName target
  checkRoomSize z (len + 8)
  store (setUint16 (len + 6).toNat)
  advance 2
  store (setUint16 priority)
  advance 2
  store (setUint16 weight)
  advance 2
  store (setUint16 port)
  advance 2
  store (slice target 0 len.toNat)
  advance len.toNat

end functions

section rules
variable {x rest : Build Unit} {bs bs' : Mem} {m : Message} {z : SizeT} {count : Message → Message} {n : Nat}

structure Message.Ready (m : Message) : Prop where
  mend : m.mend = dataMax - 1
  header : headerSize ≤ m.cur
  cur : m.cur ≤ dataMax
  buffer : dataMax ≤ m.data.length

/-- The statements store these bytes at the cursor, move it behind them, and then count. -/
def Puts (x : Build Unit) (bs : Mem) (count : Message → Message) : Prop :=
  ∀ m : Message, m.cur ≤ m.data.length → x.run m = .ok () (count (m.put bs))

/-- The call stores these bytes and counts, or it fails because there is no room and changes nothing. -/
def Adds (x : Build Unit) (bs : Mem) (count : Message → Message) : Prop :=
  ∀ m : Message, m.Ready → x.run m = if m.cur + bs.length ≤ dataMax then .ok () (count (m.put bs)) else .error () m

theorem Message.put_nil (m : Message) : m.put [] = m := by
  have hsame : writeAt m.data m.cur [] = m.data := by
    rw [writeAt, append_nil, length_nil, Nat.add_zero, take_append_drop]
  simp only [Message.put, hsame, length_nil, Nat.add_zero]

theorem Message.put_put (h : m.cur ≤ m.data.length) (bs bs' : Mem) : (m.put bs).put bs' = m.put (bs ++ bs') := by
  have hover := writeAt_writeAt_over m.data bs [] bs' [] h (.inr ⟨rfl, Nat.zero_le _⟩)
  simp only [append_nil] at hover
  simp only [Message.put, hover, length_append, Nat.add_assoc]

theorem Message.cur_put (h : m.cur ≤ m.data.length) (bs : Mem) : (m.put bs).cur ≤ (m.put bs).data.length :=
  (at_writeAt_self h bs).length_le

theorem puts_nothing : Puts (pure ()) [] id := by
  intro m _
  rw [m.put_nil]
  rfl

theorem puts_last (hn : bs.length = n) : Puts (do store bs; advance n) bs id := by
  intro m _
  subst hn
  rfl

theorem puts_counted (hn : bs.length = n) : Puts (do store bs; advance n; modify count) bs count := by
  intro m _
  subst hn
  rfl

theorem Puts.behind (hrest : Puts rest bs' count) (hn : bs.length = n) :
    Puts (do store bs; advance n; rest) (bs ++ bs') count := by
  intro m hm
  subst hn
  show rest.run (m.put bs) = _
  rw [hrest (m.put bs) (Message.cur_put hm bs), Message.put_put hm]

theorem run_guard {check : Build Unit} {c : Prop} [Decidable c]
    (hcheck : check.run m = if c then .error () m else .ok () m) :
    (do check; rest : Build Unit).run m = if c then .error () m else rest.run m := by
  rw [EStateM.run_bind, hcheck]
  by_cases h : c
  · rw [if_pos h, if_pos h]
  · rw [if_neg h, if_neg h]

theorem run_checkRoom (l : Int) (m : Message) :
    (checkRoom l).run m = if (m.mend : Int) - m.cur + 1 < l then .error () m else .ok () m := by
  unfold checkRoom
  rw [EStateM.run_bind, EStateM.run_get]
  dsimp only
  split <;> rfl

theorem run_checkRoomSize (z : SizeT) (l : Int) (m : Message) :
    (checkRoomSize z l).run m = if z.of ((m.mend : Int) - m.cur + 1) < z.of l then .error () m else .ok () m := by
  unfold checkRoomSize
  rw [EStateM.run_bind, EStateM.run_get]
  dsimp only
  split <;> rfl

theorem Puts.adds {check : Build Unit} {c : Message → Prop} [DecidablePred c] (hrest : Puts rest bs count)
    (hcheck : ∀ m, check.run m = if c m then .error () m else .ok () m)
    (hroom : ∀ m : Message, m.Ready → (c m ↔ ¬ m.cur + bs.length ≤ dataMax)) : Adds (do check; rest) bs count := by
  intro m hm
  rw [run_guard (hcheck m)]
  by_cases hfits : m.cur + bs.length ≤ dataMax
  · rw [if_pos hfits, if_neg (fun hc => (hroom m hm).mp hc hfits), hrest m (hm.cur.trans hm.buffer)]
  · rw [if_neg hfits, if_pos ((hroom m hm).mpr hfits)]

theorem Puts.checked {l : Int} (hrest : Puts rest bs count) (hl : l = bs.length) :
    Adds (do checkRoom l; rest) bs count := by
  refine hrest.adds (run_checkRoom l) (fun m hm => ?_)
  have hmend := hm.mend
  unfold dataMax at *
  omega

theorem SizeT.of_nat (z : SizeT) {i : Int} (h0 : 0 ≤ i) (hi : i < 4294967296) : (z.of i : Int) = i := by
  have hmod : i % z.modulus = i := by
    apply Int.emod_eq_of_lt h0
    cases z with
    | bits32 => exact hi
    | bits64 => exact hi.trans (by decide)
  rw [SizeT.of, hmod, Int.toNat_of_nonneg h0]

theorem Puts.checkedSize {l : Int} (hrest : Puts rest bs count) (hl : l = bs.length) (hsmall : bs.length < 4294967296) :
    Adds (do checkRoomSize z l; rest) bs count := by
  refine hrest.adds (run_checkRoomSize z l) (fun m hm => ?_)
  have hmend := hm.mend
  have hcur := hm.cur
  have hsize := z.of_nat (show 0 ≤ l by omega) (by omega)
  unfold dataMax at *
  have hfree := z.of_nat (show 0 ≤ (m.mend : Int) - m.cur + 1 by omega) (by omega)
  omega

theorem Adds.counted (hx : Adds x bs id) (count : Message → Message) : Adds (do x; modify count) bs count := by
  intro m hm
  rw [EStateM.run_bind, hx m hm]
  by_cases hfits : m.cur + bs.length ≤ dataMax
  · rw [if_pos hfits, if_pos hfits]
    rfl
  · rw [if_neg hfits, if_neg hfits]

end rules

section calls

/-- A name in memory of its own, whose bytes end in a zero byte or a pointer. -/
structure OwnName where
  mem : Mem
  size : Nat
  own : OwnBytes mem 0 size
  inside : size ≤ mem.length
  fits : size < 65536

/-- A C string whose length is an `int`. -/
abbrev LabelText := { label : CString // label.1.length < 2147483648 }

/-- The first `len` bytes of a buffer that has so many. -/
structure TxtBytes where
  txt : Mem
  len : Nat
  inside : len ≤ txt.length
  fits : len < 65536

inductive Call where
  | question (qname : OwnName) (qtype qclass : Nat)
  | answer (n : OwnName) (type cls ttl : Nat)
  | answerO (offset type cls ttl : Nat)
  | answerLo (label : LabelText) (offset type cls ttl : Nat)
  | authority (n : OwnName) (type cls ttl : Nat)
  | uint32 (i : Nat)
  | name (n : OwnName)
  | nameLo (label : LabelText) (offset : Nat)
  | txt (t : TxtBytes)
  | srv (priority weight port : Nat) (target : OwnName)

def Call.run (z : SizeT) : Call → Build Unit
  | .question qname qtype qclass => addQuestion qname.mem qtype qclass
  | .answer n type cls ttl => addAnswer n.mem type cls ttl
  | .answerO offset type cls ttl => addAnswerO offset type cls ttl
  | .answerLo label offset type cls ttl => addAnswerLo label.1.1 offset type cls ttl
  | .authority n type cls ttl => addAuthority n.mem type cls ttl
  | .uint32 i => addUint32 z i
  | .name n => addName z n.mem
  | .nameLo label offset => addNameLo z label.1.1 offset
  | .txt t => addTxt z t.txt t.len
  | .srv priority weight port target => addSrv z priority weight port target.mem

def OwnName.bytes (n : OwnName) : Mem := slice n.mem 0 n.size

/-- A type, a class and a TTL, unless it is the mark that there is none. -/
def tupleBytes (type cls ttl : Nat) : Mem :=
  setUint16 type ++ (setUint16 cls ++ if ttl = uint32Max then [] else setUint32 ttl)

def Call.bytes : Call → Mem
  | .question qname qtype qclass => qname.bytes ++ tupleBytes qtype qclass uint32Max
  | .answer n type cls ttl | .authority n type cls ttl => n.bytes ++ tupleBytes type cls ttl
  | .answerO offset type cls ttl => pointerBytes offset ++ (setUint16 type ++ (setUint16 cls ++ setUint32 ttl))
  | .answerLo label offset type cls ttl =>
    [UInt8.ofNat (label.1.1.length % 65536)] ++ (slice label.1.1 0 (label.1.1.length % 65536) ++
      (pointerBytes offset ++ (setUint16 type ++ (setUint16 cls ++ setUint32 ttl))))
  | .uint32 i => setUint16 4 ++ setUint32 i
  | .name n => setUint16 n.size ++ n.bytes
  | .nameLo label offset =>
    setUint16 (label.1.1.length + 1 + 2) ++
      ([UInt8.ofNat label.1.1.length] ++ (slice label.1.1 0 label.1.1.length ++ pointerBytes offset))
  | .txt t => setUint16 t.len ++ slice t.txt 0 t.len
  | .srv priority weight port target =>
    setUint16 (target.size + 6) ++ (setUint16 priority ++ (setUint16 weight ++ (setUint16 port ++ target.bytes)))

def Call.count : Call → Message → Message
  | .question .. => questionCounted
  | .answer .. | .answerO .. | .answerLo .. => answerCounted
  | .authority .. => authorityCounted
  | .uint32 .. | .name .. | .nameLo .. | .txt .. | .srv .. => id

theorem OwnName.sizeOfName (n : OwnName) : sizeOfName n.mem = n.size := by
  have hsize := dnameSize_eq n.own (Nat.lt_succ_self n.mem.length)
  unfold Mdns.sizeOfName
  rw [hsize, Option.getD_some]
  omega

theorem OwnName.length_bytes (n : OwnName) : n.bytes.length = n.size := slice_length ..

section adds
variable (z : SizeT) (n : OwnName) (label : LabelText) (offset type cls ttl : Nat)

theorem adds_tuple : Adds (addTuple n.mem type cls ttl) (n.bytes ++ tupleBytes type cls ttl) id := by
  have hlen : (Mdns.sizeOfName n.mem % 65536).toNat = n.size := by
    have hfits := n.fits
    rw [n.sizeOfName]
    omega
  unfold addTuple tupleBytes
  dsimp only
  rw [hlen]
  by_cases httl : ttl = uint32Max
  · simp only [httl, if_true, ne_eq, not_true_eq_false, if_false]
    refine Puts.checked (((puts_nothing.behind rfl).behind rfl).behind (slice_length ..)) ?_
    simp [n.length_bytes, setUint16]
  · simp only [httl, if_false, ne_eq, not_false_eq_true, if_true]
    refine Puts.checked ((((puts_last rfl).behind rfl).behind rfl).behind (slice_length ..)) ?_
    simp [n.length_bytes, setUint16, setUint32]
    omega

theorem adds_answerO :
    Adds (addAnswerO offset type cls ttl) (Call.answerO offset type cls ttl).bytes answerCounted := by
  unfold addAnswerO Call.bytes
  exact Puts.checked ((((puts_counted rfl).behind rfl).behind rfl).behind rfl) rfl

theorem adds_answerLo :
    Adds (addAnswerLo label.1.1 offset type cls ttl) (Call.answerLo label offset type cls ttl).bytes answerCounted := by
  unfold addAnswerLo Call.bytes
  refine Puts.checked ((((((puts_counted rfl).behind rfl).behind rfl).behind rfl).behind
    (slice_length ..)).behind rfl) ?_
  simp [pointerBytes, setUint16, setUint32]
  omega

theorem adds_uint32 (i : Nat) : Adds (addUint32 z i) (Call.uint32 i).bytes id := by
  unfold addUint32 Call.bytes
  exact Puts.checkedSize ((puts_last rfl).behind rfl) rfl (show 6 < 4294967296 by decide)

theorem adds_name : Adds (addName z n.mem) (Call.name n).bytes id := by
  have hfits := n.fits
  unfold addName Call.bytes
  simp only [n.sizeOfName, Int.toNat_natCast]
  refine Puts.checkedSize ((puts_last (slice_length ..)).behind rfl) ?_ ?_
  · simp [setUint16, n.length_bytes]
    omega
  · simp [setUint16, n.length_bytes]
    omega

theorem adds_nameLo : Adds (addNameLo z label.1.1 offset) (Call.nameLo label offset).bytes id := by
  have hfits := label.2
  unfold addNameLo Call.bytes
  refine Puts.checkedSize ((((puts_last rfl).behind (slice_length ..)).behind rfl).behind rfl) ?_ ?_
  · simp [setUint16, pointerBytes]
    omega
  · simp [setUint16, pointerBytes]
    omega

theorem adds_txt (txt : TxtBytes) : Adds (addTxt z txt.txt txt.len) (Call.txt txt).bytes id := by
  have hfits := txt.fits
  unfold addTxt Call.bytes
  refine Puts.checkedSize ((puts_last (slice_length ..)).behind rfl) ?_ ?_
  · simp [setUint16]
    omega
  · simp [setUint16]
    omega

theorem adds_srv (priority weight port : Nat) :
    Adds (addSrv z priority weight port n.mem) (Call.srv priority weight port n).bytes id := by
  have hfits := n.fits
  unfold addSrv Call.bytes
  simp only [n.sizeOfName, Int.toNat_natCast]
  rw [show ((n.size : Int) + 6).toNat = n.size + 6 by omega]
  refine Puts.checkedSize (((((puts_last (slice_length ..)).behind rfl).behind rfl).behind rfl).behind rfl) ?_ ?_
  · simp [setUint16, n.length_bytes]
    omega
  · simp [setUint16, n.length_bytes]
    omega

end adds

theorem Call.adds (z : SizeT) (c : Call) : Adds (c.run z) c.bytes c.count := by
  cases c with
  | question qname qtype qclass => exact (adds_tuple qname qtype qclass uint32Max).counted questionCounted
  | answer name type cls ttl => exact (adds_tuple name type cls ttl).counted answerCounted
  | authority name type cls ttl => exact (adds_tuple name type cls ttl).counted authorityCounted
  | answerO offset type cls ttl => exact adds_answerO offset type cls ttl
  | answerLo label offset type cls ttl => exact adds_answerLo label offset type cls ttl
  | uint32 i => exact adds_uint32 z i
  | name n => exact adds_name z n
  | nameLo label offset => exact adds_nameLo z label offset
  | txt txt => exact adds_txt z txt
  | srv priority weight port target => exact adds_srv z target priority weight port

end calls

section sequences
variable {z : SizeT} {c : Call} {m m' : Message} {h : Header} {body : Mem} {k : Nat × Nat × Nat}

def Call.entries : Call → Nat × Nat × Nat
  | .question .. => (1, 0, 0)
  | .answer .. | .answerO .. | .answerLo .. => (0, 1, 0)
  | .authority .. => (0, 0, 1)
  | .uint32 .. | .name .. | .nameLo .. | .txt .. | .srv .. => 0

/-- Exactly the bytes between the old cursor and the new one have been written, the counters apart. -/
structure Wrote (bs : Mem) (m m' : Message) : Prop where
  cur : m'.cur = m.cur + bs.length
  bytes : At m'.data m.cur bs
  others : ∀ i, i < 4 ∨ (10 ≤ i ∧ i < m.cur) ∨ m'.cur ≤ i → byte m'.data i = byte m.data i
  length : m'.data.length = m.data.length

/-- The call returns 0 and has written its bytes, or it returns -1 and has changed nothing. -/
def AllOrNothing (z : SizeT) (c : Call) (m : Message) : Prop :=
  match (c.run z).run m with
  | .ok _ m' => Wrote c.bytes m m'
  | .error _ m' => m' = m

/-- The counters of the header and those of the message are at these numbers. -/
structure Message.Counts (m : Message) (k : Nat × Nat × Nat) : Prop where
  questions : getUint16 m.data 4 = k.1 ∧ m.numQuestions = k.1
  answers : getUint16 m.data 6 = k.2.1 ∧ m.numAnswers = k.2.1
  authorities : getUint16 m.data 8 = k.2.2 ∧ m.numAuthorities = k.2.2

def Call.apply (z : SizeT) (s : Message × (Nat × Nat × Nat)) (c : Call) : Message × (Nat × Nat × Nat) :=
  match (c.run z).run s.1 with
  | .ok _ m => (m, s.2 + c.entries)
  | .error _ m => (m, s.2)

structure Message.Filled (m : Message) (k : Nat × Nat × Nat) : Prop extends m.Ready where
  holds : ∃ id flags body, m.Holds { id, flags, questions := k.1, answers := k.2.1, authorities := k.2.2 } body
  counts : m.numQuestions = k.1 ∧ m.numAnswers = k.2.1 ∧ m.numAuthorities = k.2.2
  few : k.1 + k.2.1 + k.2.2 ≤ m.cur

theorem Message.Filled.toCounts (hm : m.Filled k) : m.Counts k := by
  obtain ⟨id, flags, body, hholds⟩ := hm.holds
  obtain ⟨hq, ha, hn⟩ := hholds.counts
  obtain ⟨hq', ha', hn'⟩ := hm.counts
  have hfew := hm.few
  have hcur := hm.cur
  unfold dataMax at hcur
  dsimp only at hq ha hn
  exact ⟨⟨by omega, hq'⟩, ⟨by omega, ha'⟩, ⟨by omega, hn'⟩⟩

theorem Call.count_spec (c : Call) (m : Message) : (c.count m).cur = m.cur ∧ (c.count m).mend = m.mend ∧
    ((c.count m).data = m.data ∨ ∃ off, 4 ≤ off ∧ off ≤ 8 ∧ (c.count m).data = countUp m.data off) := by
  cases c with
  | question => exact ⟨rfl, rfl, .inr ⟨4, by decide, by decide, rfl⟩⟩
  | answer | answerO | answerLo => exact ⟨rfl, rfl, .inr ⟨6, by decide, by decide, rfl⟩⟩
  | authority => exact ⟨rfl, rfl, .inr ⟨8, by decide, by decide, rfl⟩⟩
  | uint32 | name | nameLo | txt | srv => exact ⟨rfl, rfl, .inl rfl⟩

theorem wrote_count_put (hm : m.Ready) (hfits : m.cur + c.bytes.length ≤ dataMax) :
    Wrote c.bytes m (c.count (m.put c.bytes)) := by
  have hheader := hm.header
  have hbuffer := hm.buffer
  obtain ⟨hcur, -, hdata⟩ := c.count_spec (m.put c.bytes)
  have hput : (m.put c.bytes).data = writeAt m.data m.cur c.bytes := rfl
  have hlength : (m.put c.bytes).data.length = m.data.length := length_writeAt (hfits.trans hbuffer)
  have hat : At (m.put c.bytes).data m.cur c.bytes := at_writeAt_self (hm.cur.trans hbuffer) c.bytes
  have hsame : ∀ i, i < m.cur ∨ m.cur + c.bytes.length ≤ i → byte (m.put c.bytes).data i = byte m.data i := by
    intro i hi
    rw [hput]
    rcases hi with hlt | hle
    · exact byte_writeAt_before hlt (hm.cur.trans hbuffer)
    · exact byte_writeAt_after hle (hm.cur.trans hbuffer)
  have hcur' : (c.count (m.put c.bytes)).cur = m.cur + c.bytes.length := hcur
  unfold headerSize at hheader
  unfold dataMax at hfits hbuffer
  rcases hdata with hdata | ⟨off, hlo, hhi, hdata⟩
  · refine ⟨hcur, ?_, fun i hi => ?_, ?_⟩
    · rw [hdata]
      exact hat
    · rw [hdata]
      exact hsame i (by omega)
    · rw [hdata, hlength]
  · have hcounter : off + (setUint16 (getUint16 (m.put c.bytes).data off + 1)).length ≤ 10 := by
      show off + 2 ≤ 10
      omega
    refine ⟨hcur, ?_, fun i hi => ?_, ?_⟩
    · rw [hdata]
      exact hat.writeAt_before (by omega)
    · rw [hdata, ← hsame i (by omega)]
      unfold countUp
      by_cases hlt : i < off
      · exact byte_writeAt_before hlt (by omega)
      · exact byte_writeAt_after (by omega) (by omega)
    · rw [hdata, ← hlength]
      exact length_writeAt (by omega)

theorem allOrNothing_of_ready (z : SizeT) (c : Call) (hm : m.Ready) : AllOrNothing z c m := by
  unfold AllOrNothing
  rw [c.adds z m hm]
  by_cases hfits : m.cur + c.bytes.length ≤ dataMax
  · rw [if_pos hfits]
    exact wrote_count_put hm hfits
  · rw [if_neg hfits]

theorem Message.Holds.call (hm : m.Holds h body) (c : Call) :
    (c.count (m.put c.bytes)).Holds (h.plus c.entries) (body ++ c.bytes) := by
  have hput := hm.put c.bytes
  cases c with
  | question =>
    obtain ⟨hid, hflags, hcur, hmend, hdata⟩ := hput.countQuestion 0
    exact ⟨hid, hflags, hcur, hmend, hdata⟩
  | answer | answerO | answerLo =>
    obtain ⟨hid, hflags, hcur, hmend, hdata⟩ := hput.countAnswer
    exact ⟨hid, hflags, hcur, hmend, hdata⟩
  | authority =>
    obtain ⟨hid, hflags, hcur, hmend, hdata⟩ := hput.countAuthority 0
    exact ⟨hid, hflags, hcur, hmend, hdata⟩
  | uint32 | name | nameLo | txt | srv => exact hput

theorem Call.entries_le (c : Call) : c.entries.1 + c.entries.2.1 + c.entries.2.2 ≤ c.bytes.length := by
  cases c <;> simp [Call.entries, Call.bytes, tupleBytes, pointerBytes, setUint16] <;> omega

theorem Call.num_count (hm : m.numQuestions = k.1 ∧ m.numAnswers = k.2.1 ∧ m.numAuthorities = k.2.2)
    (hfew : k.1 + k.2.1 + k.2.2 < 65535) (c : Call) :
    (c.count m).numQuestions = (k + c.entries).1 ∧ (c.count m).numAnswers = (k + c.entries).2.1 ∧
      (c.count m).numAuthorities = (k + c.entries).2.2 := by
  obtain ⟨hq, ha, hn⟩ := hm
  cases c with
  | question => exact ⟨(Nat.mod_eq_of_lt (by omega)).trans (congrArg (· + 1) hq), ha, hn⟩
  | answer | answerO | answerLo => exact ⟨hq, (Nat.mod_eq_of_lt (by omega)).trans (congrArg (· + 1) ha), hn⟩
  | authority => exact ⟨hq, ha, (Nat.mod_eq_of_lt (by omega)).trans (congrArg (· + 1) hn)⟩
  | uint32 | name | nameLo | txt | srv => exact ⟨hq, ha, hn⟩

theorem Message.Filled.call (hm : m.Filled k) (hfits : m.cur + c.bytes.length ≤ dataMax) :
    (c.count (m.put c.bytes)).Filled (k + c.entries) := by
  have hwrote := wrote_count_put hm.toReady hfits
  obtain ⟨id, flags, body, hholds⟩ := hm.holds
  have hfew := hm.few
  have hentries := c.entries_le
  have hcur := hwrote.cur
  have hholds' := hholds.call c
  refine ⟨⟨hholds'.mend, ?_, ?_, ?_⟩, ⟨id, flags, _, hholds'⟩, ?_, ?_⟩
  · have hheader := hm.header
    omega
  · omega
  · rw [hwrote.length]
    exact hm.buffer
  · have hcounts : (m.put c.bytes).numQuestions = k.1 ∧ (m.put c.bytes).numAnswers = k.2.1 ∧
        (m.put c.bytes).numAuthorities = k.2.2 := hm.counts
    unfold dataMax at hfits
    exact Call.num_count hcounts (by omega) c
  · simp only [Prod.fst_add, Prod.snd_add]
    omega

theorem Message.Filled.apply (z : SizeT) (c : Call) (hm : m.Filled k) :
    (c.apply z (m, k)).1.Filled (c.apply z (m, k)).2 := by
  unfold Call.apply
  rw [c.adds z m hm.toReady]
  by_cases hfits : m.cur + c.bytes.length ≤ dataMax
  · rw [if_pos hfits]
    exact hm.call hfits
  · rw [if_neg hfits]
    exact hm

theorem filled_foldl (z : SizeT) (calls : List Call) {s : Message × (Nat × Nat × Nat)} (hs : s.1.Filled s.2) :
    (calls.foldl (Call.apply z) s).1.Filled (calls.foldl (Call.apply z) s).2 := by
  induction calls generalizing s with
  | nil => exact hs
  | cons c calls ih => exact ih (hs.apply z c)

/-- A message that `mdns_query_init` or `mdns_response_init` has prepared, in a buffer of its size. -/
def Initialised (m : Message) : Prop :=
  ∃ m₀ : Message, dataMax ≤ m₀.data.length ∧ (m = mdnsQueryInit m₀ ∨ m = mdnsResponseInit m₀)

theorem Initialised.filled (h : Initialised m) : m.Filled 0 := by
  obtain ⟨m₀, hbuffer, hinit⟩ := h
  have hquery : (mdnsQueryInit m₀).data.length = m₀.data.length :=
    length_writeAt ((by decide : 0 + 12 ≤ dataMax).trans hbuffer)
  rcases hinit with rfl | rfl
  · exact ⟨⟨rfl, le_refl _, (by decide : headerSize ≤ dataMax), hquery ▸ hbuffer⟩,
      ⟨_, _, _, holds_mdnsQueryInit m₀⟩, ⟨rfl, rfl, rfl⟩, Nat.zero_le _⟩
  · have hresponse : (mdnsResponseInit m₀).data.length = m₀.data.length := by
      rw [← hquery]
      apply length_writeAt
      rw [hquery]
      exact (by decide : 2 + 2 ≤ dataMax).trans hbuffer
    exact ⟨⟨rfl, le_refl _, (by decide : headerSize ≤ dataMax), hresponse ▸ hbuffer⟩,
      ⟨_, _, _, holds_mdnsResponseInit m₀⟩, ⟨rfl, rfl, rfl⟩, Nat.zero_le _⟩

/-- After any calls, the next one writes all of its bytes or nothing, the cursor is in the message or right
behind it, and the entries are counted. -/
theorem calls_allOrNothing (z : SizeT) (h : Initialised m) (calls : List Call) :
    let s := calls.foldl (Call.apply z) (m, 0)
    (∀ c, AllOrNothing z c s.1) ∧ s.1.cur ≤ s.1.mend + 1 ∧ s.1.Counts s.2 := by
  intro s
  have hs : s.1.Filled s.2 := filled_foldl z calls h.filled
  refine ⟨fun c => allOrNothing_of_ready z c hs.toReady, ?_, hs.toCounts⟩
  rw [hs.mend]
  exact hs.cur

def blank : Message := { data := replicate dataMax 0, mend := 0, cur := 0 }

theorem calls_allOrNothing_blank :
    let s := [Call.answerO 12 1 1 120, .uint32 7].foldl (Call.apply .bits64) (mdnsResponseInit blank, 0)
    (∀ c, AllOrNothing .bits64 c s.1) ∧ s.1.cur ≤ s.1.mend + 1 ∧ s.1.Counts s.2 :=
  calls_allOrNothing .bits64 ⟨blank, by rw [blank, length_replicate], .inr rfl⟩ _

end sequences

section refinement
variable {k : Nat × Nat × Nat}

def Call.add : Call → Add
  | .question n qtype qclass => fun m => mdnsAddQuestion m n.mem qtype qclass
  | .answer n type cls ttl => fun m => mdnsAddAnswer m n.mem type cls ttl
  | .answerO offset type cls ttl => fun m => mdnsAddAnswerO m offset type cls ttl
  | .answerLo label offset type cls ttl => fun m => mdnsAddAnswerLo m label.1.1 offset type cls ttl
  | .authority n type cls ttl => fun m => mdnsAddAuthority m n.mem type cls ttl
  | .uint32 i => fun m => mdnsAddUint32 m i
  | .name n => fun m => mdnsAddName m n.mem
  | .nameLo label offset => fun m => mdnsAddNameLo m label.1.1 offset
  | .txt t => fun m => mdnsAddTxt m t.txt t.len
  | .srv priority weight port target => fun m => mdnsAddSrv m priority weight port target.mem

def Call.Uncut : Call → Prop
  | .answerLo label _ _ _ _ => label.1.1.length < 65536
  | _ => True

variable {m : Message} {bs : Mem}

theorem Message.Ready.putChecked (hm : m.Ready) (bs : Mem) :
    m.putChecked bs = if m.cur + bs.length ≤ dataMax then some (m.put bs) else none := by
  have hmend := hm.mend
  unfold Message.putChecked
  by_cases hfits : m.cur + bs.length ≤ dataMax
  · rw [if_pos hfits, if_neg]
    unfold dataMax at *
    omega
  · rw [if_neg hfits, if_pos]
    unfold dataMax at *
    omega

theorem Message.Ready.putCounted (hm : m.Ready) (bs : Mem) (count : Message → Message) :
    (m.putChecked bs >>= fun m => pure (count m)) =
      if m.cur + bs.length ≤ dataMax then some (count (m.put bs)) else none := by
  rw [hm.putChecked]
  by_cases hfits : m.cur + bs.length ≤ dataMax
  · rw [if_pos hfits, if_pos hfits]
    rfl
  · rw [if_neg hfits, if_neg hfits]
    rfl

theorem OwnName.nameSize (n : OwnName) : nameSize n.mem = n.size := nameSize_of_ownBytes n.own n.fits

theorem OwnName.nameBytes (n : OwnName) : nameBytes n.mem = n.bytes := by
  unfold Mdns.nameBytes OwnName.bytes
  rw [n.nameSize]

theorem slice_all (bs : Mem) : slice bs 0 bs.length = bs := At.slice ⟨[], [], by simp, rfl⟩

/-- What the short function counts: its numbers are not cut to 16 bits. -/
def Call.tally : Call → Message → Message
  | .question .. => fun m => { m with data := countUp m.data 4, numQuestions := m.numQuestions + 1 }
  | .answer .. | .answerO .. | .answerLo .. => Message.countAnswer
  | .authority .. => fun m => { m with data := countUp m.data 8, numAuthorities := m.numAuthorities + 1 }
  | .uint32 .. | .name .. | .nameLo .. | .txt .. | .srv .. => id

theorem Call.add_eq (hm : m.Ready) {c : Call} (hc : c.Uncut) :
    c.add m = if m.cur + c.bytes.length ≤ dataMax then some (c.tally (m.put c.bytes)) else none := by
  have htuple : ∀ (n : OwnName) (type cls ttl : Nat),
    mdnsAddTuple m n.mem type cls ttl = m.putChecked (n.bytes ++ tupleBytes type cls ttl) := by
    intro n type cls ttl
    unfold mdnsAddTuple tupleBytes
    rw [n.nameBytes, append_assoc, append_assoc]
  cases c with
  | question n qtype qclass =>
    simp only [Call.add, mdnsAddQuestion, htuple]
    exact hm.putCounted _ _
  | answer n type cls ttl =>
    simp only [Call.add, mdnsAddAnswer, htuple]
    exact hm.putCounted _ _
  | authority n type cls ttl =>
    simp only [Call.add, mdnsAddAuthority, htuple]
    exact hm.putCounted _ _
  | answerO offset type cls ttl =>
    simp only [Call.add, mdnsAddAnswerO, append_assoc]
    exact hm.putCounted _ _
  | answerLo label offset type cls ttl =>
    have hcut : label.1.1.length % 65536 = label.1.1.length := Nat.mod_eq_of_lt hc
    simp only [Call.add, mdnsAddAnswerLo, Call.bytes, hcut, slice_all, append_assoc, dnamePutLabel, cons_append]
    exact hm.putCounted _ _
  | uint32 i => exact hm.putChecked _
  | name n =>
    simp only [Call.add, mdnsAddName, n.nameSize, n.nameBytes]
    exact hm.putChecked _
  | nameLo label offset =>
    simp only [Call.add, mdnsAddNameLo, Call.bytes, slice_all, append_assoc, dnamePutLabel, cons_append]
    exact hm.putChecked _
  | txt t => exact hm.putChecked _
  | srv priority weight port target =>
    simp only [Call.add, mdnsAddSrv, target.nameSize, target.nameBytes, append_assoc]
    exact hm.putChecked _

theorem Call.count_eq_tally (hm : m.numQuestions = k.1 ∧ m.numAnswers = k.2.1 ∧ m.numAuthorities = k.2.2)
    (hfew : k.1 + k.2.1 + k.2.2 < 65535) (c : Call) : c.count m = c.tally m := by
  obtain ⟨hq, ha, hn⟩ := hm
  cases c with
  | question =>
    simp only [Call.count, Call.tally, questionCounted, Nat.mod_eq_of_lt (show m.numQuestions + 1 < 65536 by omega)]
  | answer | answerO | answerLo =>
    simp only [Call.count, Call.tally, answerCounted, Message.countAnswer,
      Nat.mod_eq_of_lt (show m.numAnswers + 1 < 65536 by omega)]
  | authority =>
    simp only [Call.count, Call.tally, authorityCounted, Nat.mod_eq_of_lt (show m.numAuthorities + 1 < 65536 by omega)]
  | uint32 | name | nameLo | txt | srv => rfl

theorem Call.run_eq_add (z : SizeT) (hm : m.Filled k) {c : Call} (hc : c.Uncut) :
    (c.run z).run m = match c.add m with
      | some m' => .ok () m'
      | none => .error () m := by
  have hfew := hm.few
  have hcur := hm.cur
  rw [c.adds z m hm.toReady, Call.add_eq hm.toReady hc]
  by_cases hfits : m.cur + c.bytes.length ≤ dataMax
  · rw [if_pos hfits, if_pos hfits]
    unfold dataMax at hcur
    rw [Call.count_eq_tally (m := m.put c.bytes) hm.counts (by omega) c]
  · rw [if_neg hfits, if_neg hfits]

end refinement

end Mdns
