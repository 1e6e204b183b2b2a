import Mdns.Dname.Encode
import Mathlib.Algebra.Ring.Prod
import Mathlib.Data.Nat.Cast.Basic

/-!
# The bytes of a message that is built

A message that is being built is a header and a body. Calls in a row succeed exactly if there is
room for the bytes of all of them.
-/
namespace Mdns
open Lib List

section headers

structure Header where
  id : Mem
  flags : Mem
  questions : Nat := 0
  answers : Nat := 0
  authorities : Nat := 0

def Header.bytes (h : Header) : Mem :=
  h.id ++ h.flags ++ setUint16 h.questions ++ setUint16 h.answers ++ setUint16 h.authorities ++ [0, 0]

/-- A message that is being built: its header and the body up to the cursor. -/
structure Message.Holds (m : Message) (h : Header) (body : Mem) : Prop where
  id : h.id.length = 2
  flags : h.flags.length = 2
  cur : m.cur = headerSize + body.length
  mend : m.mend = dataMax - 1
  data : At m.data 0 (h.bytes ++ body)

variable {p : Mem} {m : Message} {h : Header} {body bs : Mem}

theorem getUint16_setUint16 {n v : Nat} (h : At p n (setUint16 v)) : getUint16 p n = v % 65536 := by
  have h0 := h.byte
  have h1 := (@At.drop p n [UInt8.ofNat (v / 256)] [UInt8.ofNat v] h).byte
  simp only [length_singleton, UInt8.toNat_ofNat'] at h0 h1
  rw [getUint16, h0, h1]
  omega

theorem At.countUp {a b : Mem} {v : Nat} (h : At p 0 (a ++ setUint16 v ++ b)) :
    At (countUp p a.length) 0 (a ++ setUint16 (v + 1) ++ b) := by
  have hv : getUint16 p a.length = v % 65536 := by
    have hat := h.take.drop
    rw [Nat.zero_add] at hat
    exact getUint16_setUint16 hat
  have hset : setUint16 (v % 65536 + 1) = setUint16 (v + 1) := by
    simp only [setUint16, List.cons.injEq, and_true]
    constructor
    · apply UInt8.toNat_inj.mp
      simp only [UInt8.toNat_ofNat']
      omega
    · apply UInt8.toNat_inj.mp
      simp only [UInt8.toNat_ofNat']
      omega
  obtain ⟨front, back, rfl, hf⟩ := h
  obtain rfl := eq_nil_of_length_eq_zero hf
  refine ⟨[], back, ?_, rfl⟩
  unfold Mdns.countUp
  rw [hv, hset]
  have hsplit : [] ++ (a ++ setUint16 v ++ b) ++ back = a ++ (setUint16 v ++ b ++ back) := by simp
  rw [hsplit, writeAt_length]
  simp [setUint16]

theorem Header.length_bytes (hid : h.id.length = 2) (hflags : h.flags.length = 2) : h.bytes.length = headerSize := by
  simp [Header.bytes, hid, hflags, setUint16, headerSize]

theorem Message.Holds.length_bytes (hm : m.Holds h body) : h.bytes.length = headerSize :=
  Header.length_bytes hm.id hm.flags

theorem Message.Holds.counts (hm : m.Holds h body) :
    getUint16 m.data 4 = h.questions % 65536 ∧ getUint16 m.data 6 = h.answers % 65536 ∧
      getUint16 m.data 8 = h.authorities % 65536 := by
  have hat := hm.data.take
  rw [Header.bytes] at hat
  have hid := hm.id
  have hflags := hm.flags
  have h0 := getUint16_setUint16 hat.take.take.take.drop
  have h1 := getUint16_setUint16 hat.take.take.drop
  have h2 := getUint16_setUint16 hat.take.drop
  simp only [length_append, hid, hflags, Nat.zero_add, Nat.reduceAdd] at h0 h1 h2
  exact ⟨h0, h1, h2⟩

theorem Message.Holds.body_at (hm : m.Holds h body) : At m.data headerSize body := by
  have hat := hm.data.drop
  rw [hm.length_bytes, Nat.zero_add] at hat
  exact hat

theorem Message.Holds.put (hm : m.Holds h body) (bs : Mem) : (m.put bs).Holds h (body ++ bs) where
  id := hm.id
  flags := hm.flags
  cur := by
    show m.cur + bs.length = _
    rw [hm.cur, length_append, Nat.add_assoc]
  mend := hm.mend
  data := by
    have hcur : m.cur = 0 + (h.bytes ++ body).length := by
      rw [hm.cur, length_append, hm.length_bytes, Nat.zero_add]
    show At (writeAt m.data m.cur bs) 0 _
    rw [hcur, ← append_assoc]
    exact hm.data.put bs

theorem Message.Holds.countUp {m' : Message} {h' : Header} {a b : Mem} {v : Nat} (hm : m.Holds h body)
    (hbytes : h.bytes = a ++ setUint16 v ++ b) (hbytes' : h'.bytes = a ++ setUint16 (v + 1) ++ b)
    (hid : h'.id = h.id) (hflags : h'.flags = h.flags)
    (hdata : m'.data = Mdns.countUp m.data a.length) (hcur : m'.cur = m.cur) (hmend : m'.mend = m.mend) :
    m'.Holds h' body where
  id := hid ▸ hm.id
  flags := hflags ▸ hm.flags
  cur := hcur ▸ hm.cur
  mend := hmend ▸ hm.mend
  data := by
    have hat := hm.data
    rw [hbytes, append_assoc] at hat
    rw [hdata, hbytes', append_assoc]
    exact hat.countUp

def Header.plus (h : Header) (k : Nat × Nat × Nat) : Header :=
  { h with questions := h.questions + k.1, answers := h.answers + k.2.1, authorities := h.authorities + k.2.2 }

theorem Header.plus_plus (h : Header) (k k' : Nat × Nat × Nat) : (h.plus k).plus k' = h.plus (k + k') := by
  simp [Header.plus, Nat.add_assoc]

theorem Message.Holds.countQuestion (hm : m.Holds h body) (k : Nat) :
    Message.Holds { m with data := Mdns.countUp m.data 4, numQuestions := k } (h.plus (1, 0, 0)) body := by
  have hlen : (h.id ++ h.flags).length = 4 := by simp [hm.id, hm.flags]
  refine @Message.Holds.countUp m h body _ _ (h.id ++ h.flags)
    (setUint16 h.answers ++ setUint16 h.authorities ++ [0, 0])
    h.questions hm ?_ ?_ rfl rfl (by rw [hlen]) rfl rfl
  · simp [Header.bytes]
  · simp [Header.bytes, Header.plus]

theorem Message.Holds.countAnswer (hm : m.Holds h body) : m.countAnswer.Holds (h.plus (0, 1, 0)) body := by
  have hlen : (h.id ++ h.flags ++ setUint16 h.questions).length = 6 := by simp [hm.id, hm.flags, setUint16]
  refine @Message.Holds.countUp m h body _ _ (h.id ++ h.flags ++ setUint16 h.questions)
    (setUint16 h.authorities ++ [0, 0])
    h.answers hm ?_ ?_ rfl rfl (by rw [hlen]; rfl) rfl rfl
  · simp [Header.bytes]
  · simp [Header.bytes, Header.plus]

theorem Message.Holds.countAuthority (hm : m.Holds h body) (k : Nat) :
    Message.Holds { m with data := Mdns.countUp m.data 8, numAuthorities := k } (h.plus (0, 0, 1)) body := by
  have hlen : (h.id ++ h.flags ++ setUint16 h.questions ++ setUint16 h.answers).length = 8 := by
    simp [hm.id, hm.flags, setUint16]
  refine @Message.Holds.countUp m h body _ _ (h.id ++ h.flags ++ setUint16 h.questions ++ setUint16 h.answers) [0, 0]
    h.authorities hm ?_ ?_ rfl rfl (by rw [hlen]) rfl rfl
  · simp [Header.bytes]
  · simp [Header.bytes, Header.plus]

def queryHeader : Header := { id := [0, 0], flags := [0, 0] }

def responseHeader : Header := { id := [0, 0], flags := responseFlags }

theorem holds_mdnsQueryInit (m : Message) : (mdnsQueryInit m).Holds queryHeader [] where
  id := rfl
  flags := rfl
  cur := rfl
  mend := rfl
  data := at_writeAt_self (Nat.zero_le _) (replicate headerSize 0)

theorem holds_mdnsResponseInit (m : Message) : (mdnsResponseInit m).Holds responseHeader [] where
  id := rfl
  flags := rfl
  cur := rfl
  mend := rfl
  data := by
    obtain ⟨front, back, heq, hf⟩ := (holds_mdnsQueryInit m).data
    obtain rfl := eq_nil_of_length_eq_zero hf
    refine ⟨[], back, ?_, rfl⟩
    show writeAt (mdnsQueryInit m).data 2 responseFlags = _
    rw [heq]
    rfl

end headers

section adds

/-- The call appends these bytes and counts so many entries, if there is room. -/
def Appends (add : Add) (k : Nat × Nat × Nat) (bs : Mem) : Prop :=
  ∀ (m : Message) (h : Header) (body : Mem), m.Holds h body →
    (m.cur + bs.length ≤ dataMax → ∃ m', add m = some m' ∧ m'.Holds (h.plus k) (body ++ bs)) ∧
      (dataMax < m.cur + bs.length → add m = none)

inductive AppendsAll : List Add → Nat × Nat × Nat → Mem → Prop where
  | nil : AppendsAll [] 0 []
  | cons {add : Add} {adds : List Add} {k k' : Nat × Nat × Nat} {bs bs' : Mem} :
      Appends add k bs → AppendsAll adds k' bs' → AppendsAll (add :: adds) (k + k') (bs ++ bs')

variable {adds adds' : List Add} {k k' : Nat × Nat × Nat} {bs bs' body : Mem} {m : Message} {h : Header}

theorem AppendsAll.append (ha : AppendsAll adds k bs) (hb : AppendsAll adds' k' bs') :
    AppendsAll (adds ++ adds') (k + k') (bs ++ bs') := by
  induction ha with
  | nil => simpa using hb
  | cons hadd _ ih =>
    rw [cons_append, add_assoc, append_assoc]
    exact .cons hadd ih

theorem AppendsAll.flatMap {α : Type} {xs : List α} {f : α → List Add} {g : α → Mem}
    (hx : ∀ x ∈ xs, AppendsAll (f x) k (g x)) :
    AppendsAll (xs.flatMap f) (xs.length • k) (xs.flatMap g) := by
  induction xs with
  | nil => simpa using AppendsAll.nil
  | cons x xs ih =>
    rw [flatMap_cons, flatMap_cons, length_cons, succ_nsmul']
    exact (hx x (.head _)).append (ih (fun x' hx' => hx x' (.tail _ hx')))

theorem AppendsAll.addAll (ha : AppendsAll adds k bs) (hm : m.Holds h body) (hcur : m.cur ≤ dataMax) :
    (m.cur + bs.length ≤ dataMax → ∃ m', addAll adds m = (m', true) ∧ m'.Holds (h.plus k) (body ++ bs)) ∧
      (dataMax < m.cur + bs.length → (Mdns.addAll adds m).2 = false) := by
  induction ha generalizing m h body with
  | nil =>
    refine ⟨fun _ => ⟨m, rfl, by simpa [Header.plus] using hm⟩, fun hlt => ?_⟩
    exact absurd hlt (Nat.not_lt_of_le hcur)
  | @cons add adds k k' bs bs' hadd _ ih =>
    obtain ⟨hroom, hfull⟩ := hadd m h body hm
    by_cases hfits : m.cur + bs.length ≤ dataMax
    · obtain ⟨m1, heq, hm1⟩ := hroom hfits
      have hcur1 : m1.cur = m.cur + bs.length := by
        rw [hm1.cur, hm.cur, length_append, Nat.add_assoc]
      have hrest := ih hm1 (by omega)
      rw [Header.plus_plus, append_assoc] at hrest
      rw [Mdns.addAll, heq]
      rw [hcur1, Nat.add_assoc, ← length_append] at hrest
      exact hrest
    · rw [Mdns.addAll, hfull (by omega), length_append]
      exact ⟨fun hle => absurd hle (by omega), fun _ => rfl⟩

theorem AppendsAll.holds (ha : AppendsAll adds k bs) (hm : m.Holds h body) (hcur : m.cur ≤ dataMax) {m' : Message}
    (heq : Mdns.addAll adds m = (m', true)) : m'.Holds (h.plus k) (body ++ bs) ∧ m.cur + bs.length ≤ dataMax := by
  obtain ⟨hroom, hfull⟩ := ha.addAll hm hcur
  by_cases hfits : m.cur + bs.length ≤ dataMax
  · obtain ⟨m1, heq1, hm1⟩ := hroom hfits
    rw [heq] at heq1
    cases heq1
    exact ⟨hm1, hfits⟩
  · have hfalse := hfull (by omega)
    rw [heq] at hfalse
    cases hfalse

theorem appends_putChecked (bs : Mem) : Appends (fun m => m.putChecked bs) 0 bs := by
  intro m h body hm
  have hmend := hm.mend
  unfold Message.putChecked
  unfold dataMax at *
  refine ⟨fun hle => ⟨m.put bs, if_neg (by omega), ?_⟩, fun hlt => if_pos (by omega)⟩
  simpa [Header.plus] using hm.put bs

theorem Appends.count {add : Add} {count : Message → Message} (ha : Appends add 0 bs)
    (hc : ∀ {m h body}, Message.Holds m h body → (count m).Holds (h.plus k) body) :
    Appends (fun m => add m >>= fun m => pure (count m)) k bs := by
  intro m h body hm
  obtain ⟨hroom, hfull⟩ := ha m h body hm
  refine ⟨fun hle => ?_, fun hlt => by simp [hfull hlt]⟩
  obtain ⟨m', heq, hm'⟩ := hroom hle
  refine ⟨count m', by simp [heq], ?_⟩
  have h0 : h.plus 0 = h := by simp [Header.plus]
  rw [h0] at hm'
  exact hc hm'

theorem AppendsAll.single {add : Add} (ha : Appends add k bs) : AppendsAll [add] k bs := by
  simpa using AppendsAll.cons ha AppendsAll.nil

end adds

section entries

structure WireName where
  mem : Mem
  labels : Labels
  written : At mem 0 (encodeName labels)
  sizes : ∀ l ∈ labels, 0 < l.length ∧ l.length < 64
  fits : (encodeName labels).length ≤ maxNameLen

abbrev WireLabel := { l : List UInt8 // 0 < l.length ∧ l.length < 64 }

theorem WireName.nameSize (n : WireName) : nameSize n.mem = (encodeName n.labels).length :=
  nameSize_encodeName n.sizes n.written (Nat.lt_of_le_of_lt n.fits (by decide))

theorem WireName.nameBytes (n : WireName) : nameBytes n.mem = encodeName n.labels :=
  nameBytes_encodeName n.sizes n.written (Nat.lt_of_le_of_lt n.fits (by decide))

structure Asked where
  name : WireName
  type : Nat
  cls : Nat

/-- The name of a record: written out, a label before the name at an offset, or the name at an
offset. -/
inductive Owner where
  | name (n : WireName)
  | label (l : WireLabel) (off : Nat)
  | offset (off : Nat)

inductive Rdata where
  | uint32 (i : Nat)
  | name (n : WireName)
  | label (l : WireLabel) (off : Nat)
  | txt (text : Mem) (len : Nat)
  | srv (weight port : Nat) (target : WireName)

structure Entry (α : Type) where
  owner : α
  type : Nat
  cls : Nat
  ttl : Nat
  data : Rdata

def pointerBytes (offset : Nat) : Mem := setUint16 (0xC000 ||| offset)

def Asked.bytes (q : Asked) : Mem := encodeName q.name.labels ++ setUint16 q.type ++ setUint16 q.cls

def Owner.bytes : Owner → Mem
  | .name n => encodeName n.labels
  | .label l off => dnamePutLabel l.1 ++ pointerBytes off
  | .offset off => pointerBytes off

def Rdata.bytes : Rdata → Mem
  | .uint32 i => setUint32 i
  | .name n => encodeName n.labels
  | .label l off => dnamePutLabel l.1 ++ pointerBytes off
  | .txt text len => slice text 0 len
  | .srv weight port target => setUint16 0 ++ setUint16 weight ++ setUint16 port ++ encodeName target.labels

def fixedBytes (type cls ttl : Nat) : Mem := setUint16 type ++ setUint16 cls ++ setUint32 ttl

def Entry.bytes (e : Entry Owner) : Mem :=
  e.owner.bytes ++ fixedBytes e.type e.cls e.ttl ++ setUint16 e.data.bytes.length ++ e.data.bytes

def Asked.add (q : Asked) : Add := fun m => mdnsAddQuestion m q.name.mem q.type q.cls

def Rdata.add : Rdata → Add
  | .uint32 i => fun m => mdnsAddUint32 m i
  | .name n => fun m => mdnsAddName m n.mem
  | .label l off => fun m => mdnsAddNameLo m l.1 off
  | .txt text len => fun m => mdnsAddTxt m text len
  | .srv weight port target => fun m => mdnsAddSrv m 0 weight port target.mem

def Owner.add (o : Owner) (type cls ttl : Nat) : Add :=
  match o with
  | .name n => fun m => mdnsAddAnswer m n.mem type cls ttl
  | .label l off => fun m => mdnsAddAnswerLo m l.1 off type cls ttl
  | .offset off => fun m => mdnsAddAnswerO m off type cls ttl

def Entry.answerAdds (e : Entry Owner) : List Add := [e.owner.add e.type e.cls e.ttl, e.data.add]

def Entry.authorityAdds (e : Entry WireName) : List Add :=
  [fun m => mdnsAddAuthority m e.owner.mem e.type e.cls e.ttl, e.data.add]

def Entry.proposed (e : Entry WireName) : Entry Owner := { e with owner := .name e.owner }

theorem appends_tuple (n : WireName) (type cls ttl : Nat) :
    Appends (fun m => mdnsAddTuple m n.mem type cls ttl) 0
      (encodeName n.labels ++ setUint16 type ++ setUint16 cls ++ if ttl = uint32Max then [] else setUint32 ttl) := by
  rw [← n.nameBytes]
  exact appends_putChecked _

theorem appends_asked (q : Asked) : Appends q.add (1, 0, 0) q.bytes := by
  have htuple := (appends_tuple q.name q.type q.cls uint32Max).count
    (fun {m _ _} hm => hm.countQuestion (m.numQuestions + 1))
  rw [if_pos rfl, append_nil] at htuple
  exact htuple

theorem appends_rdata (d : Rdata) : Appends d.add 0 (setUint16 d.bytes.length ++ d.bytes) := by
  cases d with
  | uint32 i => exact appends_putChecked _
  | name n =>
    show Appends (fun m => m.putChecked (setUint16 (nameSize n.mem) ++ nameBytes n.mem)) 0 _
    rw [n.nameSize, n.nameBytes]
    exact appends_putChecked _
  | label l offset =>
    have hlen : (Rdata.label l offset).bytes.length = l.1.length + 3 := by
      simp [Rdata.bytes, dnamePutLabel, pointerBytes, setUint16]
    rw [hlen, Rdata.bytes, ← append_assoc]
    exact appends_putChecked _
  | txt text len =>
    rw [show (Rdata.txt text len).bytes.length = len from slice_length _ _ _]
    exact appends_putChecked _
  | srv weight port target =>
    have hlen : (Rdata.srv weight port target).bytes.length = nameSize target.mem + 6 := by
      rw [target.nameSize]
      simp [Rdata.bytes, setUint16]
    have hbytes : setUint16 (nameSize target.mem + 6) ++ (Rdata.srv weight port target).bytes =
        setUint16 (nameSize target.mem + 6) ++ setUint16 0 ++ setUint16 weight ++ setUint16 port ++
          nameBytes target.mem := by
      rw [target.nameBytes, Rdata.bytes]
      simp
    rw [hlen, hbytes]
    exact appends_putChecked _

theorem appends_owner (o : Owner) (type cls ttl : Nat) (httl : ttl ≠ uint32Max) :
    Appends (o.add type cls ttl) (0, 1, 0) (o.bytes ++ fixedBytes type cls ttl) := by
  cases o with
  | name n =>
    have htuple := (appends_tuple n type cls ttl).count (fun hm => hm.countAnswer)
    rw [if_neg httl, append_assoc, append_assoc, ← append_assoc (setUint16 type)] at htuple
    exact htuple
  | label l offset =>
    have hput := (appends_putChecked ((Owner.label l offset).bytes ++ fixedBytes type cls ttl)).count
      (fun hm => hm.countAnswer)
    simp only [Owner.bytes, fixedBytes, ← append_assoc] at hput ⊢
    exact hput
  | offset off =>
    have hput := (appends_putChecked ((Owner.offset off).bytes ++ fixedBytes type cls ttl)).count
      (fun hm => hm.countAnswer)
    simp only [Owner.bytes, fixedBytes, ← append_assoc] at hput ⊢
    exact hput

theorem appends_answer {e : Entry Owner} (httl : e.ttl ≠ uint32Max) : AppendsAll e.answerAdds (0, 1, 0) e.bytes := by
  have hall := AppendsAll.cons (appends_owner e.owner e.type e.cls e.ttl httl)
    (AppendsAll.single (appends_rdata e.data))
  rw [← append_assoc] at hall
  exact hall

theorem appends_authority {e : Entry WireName} (httl : e.ttl ≠ uint32Max) :
    AppendsAll e.authorityAdds (0, 0, 1) e.proposed.bytes := by
  have htuple := (appends_tuple e.owner e.type e.cls e.ttl).count
    (fun {m _ _} hm => hm.countAuthority (m.numAuthorities + 1))
  rw [if_neg httl, append_assoc, append_assoc, ← append_assoc (setUint16 e.type)] at htuple
  have hall := AppendsAll.cons htuple (AppendsAll.single (appends_rdata e.data))
  rw [← append_assoc] at hall
  exact hall

end entries

section plans

structure Plan where
  response : Bool
  questions : List Asked
  answers : List (Entry Owner)
  authorities : List (Entry WireName)

def Plan.init (p : Plan) (m : Message) : Message := if p.response then mdnsResponseInit m else mdnsQueryInit m

def Plan.adds (p : Plan) : List Add :=
  p.questions.map Asked.add ++ p.answers.flatMap Entry.answerAdds ++ p.authorities.flatMap Entry.authorityAdds

def Plan.body (p : Plan) : Mem :=
  p.questions.flatMap Asked.bytes ++ p.answers.flatMap Entry.bytes ++
    (p.authorities.map Entry.proposed).flatMap Entry.bytes

def Plan.header (p : Plan) : Header :=
  { id := [0, 0], flags := if p.response then responseFlags else [0, 0], questions := p.questions.length
    answers := p.answers.length, authorities := p.authorities.length }

def Plan.HasTtls (p : Plan) : Prop := (∀ e ∈ p.answers, e.ttl ≠ uint32Max) ∧ ∀ e ∈ p.authorities, e.ttl ≠ uint32Max

variable {p : Plan} {m m' : Message}

theorem Plan.appendsAll (httl : p.HasTtls) :
    AppendsAll p.adds (p.questions.length, p.answers.length, p.authorities.length) p.body := by
  have hq : AppendsAll (p.questions.map Asked.add) (p.questions.length • (1, 0, 0))
    (p.questions.flatMap Asked.bytes) := by
    rw [map_eq_flatMap]
    exact AppendsAll.flatMap (fun q _ => AppendsAll.single (appends_asked q))
  have ha := AppendsAll.flatMap (fun e he => appends_answer (httl.1 e he))
  have hr := AppendsAll.flatMap (fun e he => appends_authority (httl.2 e he))
  have hall := (hq.append ha).append hr
  simpa [Plan.adds, Plan.body, flatMap_map] using hall

theorem Plan.holds_init (p : Plan) (m : Message) :
    (p.init m).Holds { id := [0, 0], flags := if p.response then responseFlags else [0, 0] } [] := by
  unfold Plan.init
  split
  · exact holds_mdnsResponseInit m
  · exact holds_mdnsQueryInit m

/-- A message whose calls all succeeded is the header and the body, and calls succeed if there is
room. -/
theorem Plan.holds (httl : p.HasTtls) (h : addAll p.adds (p.init m) = (m', true)) :
    m'.Holds p.header p.body ∧ headerSize + p.body.length ≤ dataMax := by
  have hinit := p.holds_init m
  have hcur : (p.init m).cur = headerSize := hinit.cur
  obtain ⟨hholds, hle⟩ := (p.appendsAll httl).holds hinit (by rw [hcur]; decide) h
  rw [hcur] at hle
  refine ⟨?_, hle⟩
  simpa [Header.plus, Plan.header] using hholds

theorem Plan.built (httl : p.HasTtls) (hroom : headerSize + p.body.length ≤ dataMax) :
    ∃ m', addAll p.adds (p.init m) = (m', true) ∧ m'.Holds p.header p.body := by
  have hinit := p.holds_init m
  have hcur : (p.init m).cur = headerSize := hinit.cur
  obtain ⟨m', heq, hholds⟩ := ((p.appendsAll httl).addAll hinit (by rw [hcur]; decide)).1 (by rwa [hcur])
  refine ⟨m', heq, ?_⟩
  simpa [Header.plus, Plan.header] using hholds

end plans

end Mdns
