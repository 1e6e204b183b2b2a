import Mdns.Message
import Mdns.Dname.Size

/-!
# The layout of a packet

What the lengths in a packet say about it, without following a single pointer. The parser is this
layout with `dname_overrun` asked at every name field.
-/
namespace Mdns
open Lib

/-- The name fields that are come to, and what is read when nothing was cut off. -/
structure Scan (α : Type) where
  fields : List Nat
  result : Option α

def Scan.done {α : Type} (a : α) : Scan α := ⟨[], some a⟩
def Scan.cut {α : Type} : Scan α := ⟨[], none⟩
def Scan.field (n : Nat) : Scan Unit := ⟨[n], some ()⟩

def Scan.andThen {α β : Type} (s : Scan α) (t : α → Scan β) : Scan β :=
  match s.result with
  | none => ⟨s.fields, none⟩
  | some a => ⟨s.fields ++ (t a).fields, (t a).result⟩

def Scan.need {α : Type} (c : Prop) [Decidable c] (s : Scan α) : Scan α := if c then s else .cut

/-- The offset behind the own bytes of the name at the cursor, when these fit. -/
def nameEnd (p : Mem) (e c : Nat) : Option Nat :=
  match dnameSize (p.length + 1) p c with
  | some len => if len ≤ maxNameLen ∧ c + len ≤ e + 1 then some (c + len.toNat) else none
  | none => none

def scanName (m : Message) : Scan Message :=
  match nameEnd m.data m.mend m.cur with
  | none => .cut
  | some c => (Scan.field m.cur).andThen (fun _ => .done { m with cur := c })

def scanQuestion (m : Message) : Scan (Question × Message) :=
  (scanName m).andThen (fun m' => .need (m'.cur + 4 ≤ m'.mend + 1) (.done
    ({ qname := m.cur, qtype := getUint16 m'.data m'.cur, qclass := getUint16 m'.data (m'.cur + 2) },
      { m' with cur := m'.cur + 4 })))

/-- The fixed part of a record whose name starts at `name` and ends before `c`. -/
def recordAt (p : Mem) (name c : Nat) : Resource :=
  { name, type := getUint16 p c, cls := getUint16 p (c + 2), ttl := getUint32 p (c + 4),
    rdlength := getUint16 p (c + 8), rdata := c + 10 }

/-- The record data holds a name that the parser looks at, or is an address of four bytes. -/
def scanRdata (r : Resource) : Scan Unit :=
  if r.type = tA then .need (r.rdlength = 4) (.done ())
  else if r.type = tSrv ∨ r.type = tPtr then .field r.rdata
  else .done ()

def scanResource (m : Message) : Scan (Resource × Message) :=
  (scanName m).andThen (fun m' =>
    let r := recordAt m'.data m.cur m'.cur
    .need (m'.cur + 10 ≤ m'.mend + 1) (.need (m'.cur + 10 + r.rdlength ≤ m'.mend + 1)
      ((scanRdata r).andThen (fun _ => .done (r, sortRecord { m' with cur := m'.cur + 10 + r.rdlength } r)))))

def scanMany {α : Type} (scan : Message → Scan (α × Message)) : Nat → Message → Scan (List α × Message)
  | 0, m => .done ([], m)
  | n+1, m => (scan m).andThen (fun x =>
    (scanMany scan n x.2).andThen (fun y => .done (x.1 :: y.1, y.2)))

/-- The layout of the first `mlen` bytes of a buffer. -/
def scanPacket (data : Mem) (mlen : Nat) : Scan Message :=
  let m := startMessage data mlen
  .need (headerSize ≤ mlen) (.need (opcode m.data = 0)
    ((scanMany scanQuestion m.numQuestions m).andThen (fun x =>
      (scanMany scanResource x.2.numAnswers { x.2 with questions := x.1 }).andThen (fun y =>
        (scanMany scanResource y.2.numAuthorities { y.2 with answers := y.1 }).andThen (fun z =>
          .done { z.2 with authorities := z.1 })))))

def nameFields (data : Mem) (mlen : Nat) : List Nat := (scanPacket data mlen).fields

end Mdns
