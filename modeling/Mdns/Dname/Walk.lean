import Mdns.Bytes
import Mdns.Lib.Loop

/-!
# The name walkers of `dname.c`

Each walker is its loop, run on fuel: `none` is a call that does not return. A byte with either of
its two top bits set is taken for a compression pointer, as `IS_POINTER` has it.
-/
namespace Mdns
open Lib

def maxLabelLen : Nat := 63
def maxNameLen : Nat := 255
def maxKeyvalLen : Nat := 255

/-- `IS_POINTER`: one of the two top bits of the byte is set. -/
def isPointer (c : Nat) : Bool := decide (64 ≤ c)

/-- `POINTER`: the low six bits of the first byte and the second byte. -/
def pointer (p : Mem) (n : Nat) : Nat := byte p n % 64 * 256 + byte p (n + 1)

/-- The bytes a name is read from, and whether the raw packet that its pointers are relative
to is given. Following a pointer with a NULL packet does not lead to a defined address. -/
structure Src where
  mem : Mem
  rel : Bool

def Src.packet (p : Mem) : Src := ⟨p, true⟩
def Src.plain (name : Mem) : Src := ⟨name, false⟩

/-- `while (IS_POINTER(*n)) n = p + POINTER(n)`. -/
def chaseBody (p : Src) (n : Nat) : Nat ⊕ Option Nat :=
  if isPointer (byte p.mem n) then
    if p.rel then .inl (pointer p.mem n) else .inr none
  else .inr (some n)

def chase (fuel : Nat) (p : Src) (n : Nat) : Option Nat := (loop (chaseBody p) fuel n).join

/-- `dname_size`. -/
def sizeBody (p : Mem) (start d : Nat) : Nat ⊕ Int :=
  if byte p d = 0 then .inr (d - start + 1)
  else if isPointer (byte p d) then .inr (d + 1 - start + 1)
  else if byte p d > maxLabelLen then .inr (-1)
  else .inl (d + byte p d + 1)

def dnameSize (fuel : Nat) (p : Mem) (n : Nat) : Option Int := loop (sizeBody p n) fuel n

/-- The byte loop of `dname_label_cmp`: the first difference decides, else the longer wins. -/
def cmpBytes : List UInt8 → List UInt8 → Int
  | [], [] => 0
  | [], _ :: _ => -1
  | _ :: _, [] => 1
  | a :: as, b :: bs => if a > b then 1 else if b > a then -1 else cmpBytes as bs

/-- The comparison of two labels once the pointers before them are followed. -/
def labelCmpAt (p1 : Mem) (l1 : Nat) (p2 : Mem) (l2 : Nat) : Int :=
  cmpBytes (slice p1 (l1 + 1) (byte p1 l1)) (slice p2 (l2 + 1) (byte p2 l2))

/-- `dname_label_cmp`. -/
def dnameLabelCmp (fuel : Nat) (p1 : Src) (l1 : Nat) (p2 : Src) (l2 : Nat) : Option Int := do
  let l1 ← chase fuel p1 l1
  let l2 ← chase fuel p2 l2
  return labelCmpAt p1.mem l1 p2.mem l2

/-- `dname_label_next`: the inner `none` is the NULL at the end of the name. -/
def dnameLabelNext (fuel : Nat) (p : Src) (n : Nat) : Option (Option Nat) := do
  let n ← chase fuel p n
  let n := n + byte p.mem n + 1
  return if byte p.mem n = 0 then none else some n

/-- `dname_cmp`. Both cursors are past their pointers when the labels are compared, so the
pointer loops of `dname_label_cmp` have nothing to do there. -/
def cmpBody (p1 p2 : Src) : Nat × Nat → (Nat × Nat) ⊕ Option Int
  | (n1, n2) =>
    if isPointer (byte p1.mem n1) then
      if p1.rel then .inl (pointer p1.mem n1, n2) else .inr none
    else if isPointer (byte p2.mem n2) then
      if p2.rel then .inl (n1, pointer p2.mem n2) else .inr none
    else if byte p1.mem n1 = 0 ∧ byte p2.mem n2 = 0 then .inr (some 0)
    else if byte p1.mem n1 ≠ 0 ∧ byte p2.mem n2 = 0 then .inr (some 1)
    else if byte p1.mem n1 = 0 ∧ byte p2.mem n2 ≠ 0 then .inr (some (-1))
    else if labelCmpAt p1.mem n1 p2.mem n2 ≠ 0 then .inr (some (labelCmpAt p1.mem n1 p2.mem n2))
    else .inl (n1 + byte p1.mem n1 + 1, n2 + byte p2.mem n2 + 1)

def dnameCmp (fuel : Nat) (p1 : Src) (n1 : Nat) (p2 : Src) (n2 : Nat) : Option Int :=
  (loop (cmpBody p1 p2) fuel (n1, n2)).join

/-- `dname_copy`: the flag marks the inner pointer loop, which does not look for the zero
byte again. The result is what has been written to `dst`, and the return code. -/
def copyBody (p : Mem) : Bool × Nat × Mem → (Bool × Nat × Mem) ⊕ (Mem × Int)
  | (inner, src, dst) =>
    if !inner && byte p src = 0 then .inr (dst ++ [0], 0)
    else if isPointer (byte p src) then .inl (true, pointer p src, dst)
    else if dst.length + byte p src + 1 ≥ maxNameLen then .inr (dst ++ [0], -1)
    else .inl (false, src + byte p src + 1, dst ++ slice p src (byte p src + 1))

def dnameCopy (fuel : Nat) (p : Mem) (src : Nat) : Option (Mem × Int) :=
  loop (copyBody p) fuel (false, src, [])

def underscore : UInt8 := 95
def colon : UInt8 := 58
def dash : UInt8 := 45

/-- `dname_label_to_c`: the text and the position after the label, or the NULL of a label
that is too long. Without `keepuscores` no underscore is copied. -/
def dnameLabelToC (fuel : Nat) (p : Mem) (src : Nat) (keepuscores : Bool) :
    Option (Option (List UInt8 × Nat)) := do
  let src ← chase fuel (.packet p) src
  let len := byte p src
  let text := slice p (src + 1) len
  return if len ≥ maxLabelLen then none
    else some (if keepuscores then text else text.filter (· ≠ underscore), src + 1 + len)

/-- `txt_to_c_ncpy`: the text written to `dst`, without its terminating zero. -/
def txtBody (p : Mem) : Nat × Int × Int × List UInt8 → (Nat × Int × Int × List UInt8) ⊕ List UInt8
  | (txt, tlen, remaining, dst) =>
    if byte p txt = 0 ∨ tlen = 0 then .inr dst
    else if byte p txt > remaining then .inl (txt + byte p txt + 1, tlen, remaining, dst)
    else
      let remaining := remaining - byte p txt
      let tlen := tlen - (byte p txt + 1)
      let dst := dst ++ slice p (txt + 1) (byte p txt)
      if remaining = 0 ∨ remaining = 1 ∨ tlen = 0 then .inr dst
      else .inl (txt + byte p txt + 1, tlen, remaining, dst ++ [colon])

def txtToCNcpy (fuel : Nat) (dlen : Nat) (p : Mem) (txt tlen : Nat) : Option (List UInt8) :=
  loop (txtBody p) fuel (txt, (tlen : Int), (dlen : Int) - 1, [])

/-- `dname_overrun`: the flag marks the inner pointer loop, which checks the bound after each
jump but does not look for the zero byte. -/
def overrunBody (p : Mem) (e : Nat) : Bool × Nat → (Bool × Nat) ⊕ Bool
  | (inner, n) =>
    if n > e then .inr true
    else if !inner && byte p n = 0 then .inr false
    else if isPointer (byte p n) then .inl (true, pointer p n)
    else .inl (false, n + byte p n + 1)

def dnameOverrun (fuel : Nat) (p : Mem) (e n : Nat) : Option Bool :=
  loop (overrunBody p e) fuel (false, n)

/-- `dname_put_label`: the length byte and the text; the next label or the terminating zero
is written over the zero that `strcpy` leaves behind them. -/
def dnamePutLabel (label : List UInt8) : Mem := UInt8.ofNat label.length :: label

/-- `strlen`. -/
def strlen (s : Mem) : Nat := (s.takeWhile (· ≠ 0)).length

/-- `dname_increment` on a name in a buffer: the buffer that it leaves and the return code. A name
with a zero byte in its first label gives `memmove` a size below zero, which is a call that does
not return. -/
def dnameIncrement (name : Mem) : Option (Mem × Int) :=
  let len := byte name 0
  if byte name (len - 1) = 45 ∧ 50 ≤ byte name len ∧ byte name len < 57 then
    some (writeAt name len [UInt8.ofNat (byte name len + 1)], 0)
  else if byte name (len - 1) = 45 ∧ byte name len = 57 then some (name, -1)
  else if len + 2 > maxLabelLen then some (writeAt name (maxLabelLen - 1) [dash, 50], 0)
  else
    let name := writeAt name 0 [UInt8.ofNat (len + 2)]
    if strlen name < len then none
    else
      -- the bytes behind the label, up to the zero byte that `strlen` has found
      let name := writeAt name (len + 3) (slice name (len + 1) (strlen name - len))
      some (writeAt name (len + 1) [dash, 50], 0)

theorem isPointer_iff {c : Nat} : isPointer c = true ↔ 64 ≤ c := decide_eq_true_iff

end Mdns
