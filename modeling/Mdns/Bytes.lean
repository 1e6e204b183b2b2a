import Mathlib.Algebra.Ring.Nat
import Mathlib.Data.List.Basic
import Mathlib.Tactic.Common
import Mathlib.Tactic.SplitIfs

/-!
# Packet memory

A buffer is the list of the bytes from its first address on, stale bytes and whatever
follows the array included; memory that is not there reads as zero. Offsets from the start
of the buffer stand for the pointers of the source.
-/
namespace Mdns

variable {p q : Mem} {n mlen : Nat}

abbrev Mem := List UInt8

/-- The byte at an offset, as the integer it is promoted to. -/
def byte (p : Mem) (n : Nat) : Nat := (p.getD n 0).toNat

/-- The `len` bytes from offset `n` on. -/
def slice (p : Mem) (n len : Nat) : List UInt8 := (List.range len).map (fun i => p.getD (n + i) 0)

/-- `get_uint16`: two bytes in network order. -/
def getUint16 (p : Mem) (n : Nat) : Nat := byte p n * 256 + byte p (n + 1)

/-- `get_uint32`: four bytes in network order. -/
def getUint32 (p : Mem) (n : Nat) : Nat :=
  byte p n * 16777216 + byte p (n + 1) * 65536 + byte p (n + 2) * 256 + byte p (n + 3)

/-- `set_uint16`: the two bytes that are stored. -/
def setUint16 (v : Nat) : List UInt8 := [UInt8.ofNat (v / 256), UInt8.ofNat v]

/-- `set_uint32`: the four bytes that are stored. -/
def setUint32 (v : Nat) : List UInt8 :=
  [UInt8.ofNat (v / 16777216), UInt8.ofNat (v / 65536), UInt8.ofNat (v / 256), UInt8.ofNat v]

/-- Overwrite the bytes from offset `n` on. -/
def writeAt (p : Mem) (n : Nat) (bs : List UInt8) : Mem := p.take n ++ bs ++ p.drop (n + bs.length)

/-- The buffer holds exactly the bytes `bs` at offset `n`. -/
def At (p : Mem) (n : Nat) (bs : List UInt8) : Prop := ∃ front back, p = front ++ bs ++ back ∧ front.length = n

theorem byte_lt (p : Mem) (n : Nat) : byte p n < 256 := (p.getD n 0).toNat_lt

theorem byte_eq_zero_of_length_le (h : p.length ≤ n) : byte p n = 0 := by
  simp [byte, List.getD_eq_getElem?_getD, List.getElem?_eq_none h]

@[simp] theorem slice_length (p : Mem) (n len : Nat) : (slice p n len).length = len := by
  simp [slice]

/-- Two buffers that hold the same bytes below a bound. -/
def Agree (mlen : Nat) (p q : Mem) : Prop := ∀ n < mlen, p.getD n 0 = q.getD n 0

theorem Agree.byte (h : Agree mlen p q) (hn : n < mlen) :
    byte p n = byte q n := congrArg UInt8.toNat (h n hn)

theorem Agree.symm (h : Agree mlen p q) : Agree mlen q p :=
  fun n hn => (h n hn).symm

theorem Agree.getUint16 (h : Agree mlen p q) (hn : n + 1 < mlen) :
    getUint16 p n = getUint16 q n := by
  simp only [Mdns.getUint16, h.byte hn, h.byte (Nat.lt_of_succ_lt hn)]

theorem Agree.getUint32 (h : Agree mlen p q) (hn : n + 3 < mlen) :
    getUint32 p n = getUint32 q n := by
  simp only [Mdns.getUint32, h.byte hn, h.byte (show n < mlen by omega),
    h.byte (show n + 1 < mlen by omega), h.byte (show n + 2 < mlen by omega)]

end Mdns
