import Mdns.Build
import Mdns.Dname.Size
import Mdns.Store

/-!
# The size of a name that is written out

The own bytes of a name, label by label, and what `dname_size` finds for a name in a buffer of its
own.
-/
namespace Mdns
open Lib

section
variable {p : Mem} {n c : Nat}

theorem ownBytes_zero (h : byte p n = 0) : OwnBytes p n (n + 1) := by
  refine ⟨0, ⟨.inl h, fun i hi => absurd hi (Nat.not_lt_zero i)⟩, ?_⟩
  simp [ownEnd, h]

theorem ownBytes_pointer (h : isPointer (byte p n) = true) : OwnBytes p n (n + 2) := by
  refine ⟨0, ⟨.inr h, fun i hi => absurd hi (Nat.not_lt_zero i)⟩, ?_⟩
  have hne : byte p n ≠ 0 := fun hz => by simp [hz, isPointer] at h
  simp [ownEnd, hne]

theorem OwnBytes.label (hz : byte p n ≠ 0) (hp : isPointer (byte p n) = false) (h : OwnBytes p (n + byte p n + 1) c) :
    OwnBytes p n c := by
  obtain ⟨k, ⟨hstop, hbefore⟩, rfl⟩ := h
  refine ⟨k + 1, ⟨hstop, fun i hi => ?_⟩, rfl⟩
  cases i with
  | zero => exact not_or.mpr ⟨hz, by simp [hp]⟩
  | succ i => exact hbefore i (by omega)

theorem ownBytes_putLabel {l : List UInt8} (hl : 0 < l.length ∧ l.length < 64) (h : At p n (dnamePutLabel l))
    (hrest : OwnBytes p (n + l.length + 1) c) : OwnBytes p n c := by
  have hbyte : byte p n = l.length := by rw [h.byte, toNat_ofNat_lt (by omega)]
  refine OwnBytes.label (by omega) ?_ (by rwa [hbyte])
  simp only [isPointer, hbyte, decide_eq_false_iff_not]
  omega

theorem ownBytes_encodeName {ls : Labels} (hls : ∀ l ∈ ls, 0 < l.length ∧ l.length < 64) (h : At p n (encodeName ls)) :
    OwnBytes p n (n + (encodeName ls).length) := by
  induction ls generalizing n with
  | nil => exact ownBytes_zero h.byte
  | cons l ls ih =>
    rw [encodeName_cons] at h
    have hrest := ih (fun l' hl' => hls l' (.tail _ hl')) h.drop
    have hlen : (dnamePutLabel l).length = l.length + 1 := rfl
    refine ownBytes_putLabel (hls l (.head _)) h.take ?_
    rw [encodeName_cons, List.length_append, hlen, ← Nat.add_assoc]
    rw [hlen] at hrest
    exact hrest

theorem nameSize_of_ownBytes (h : OwnBytes p 0 c) (hc : c < 65536) : nameSize p = c := by
  unfold nameSize
  rw [dnameSize_eq h (Nat.lt_succ_self _)]
  show ((c : Int) - (0 : Nat)).toNat % 65536 = c
  omega

end

section
variable {name : Mem} {ls : Labels}

theorem nameSize_encodeName (hls : ∀ l ∈ ls, 0 < l.length ∧ l.length < 64) (h : At name 0 (encodeName ls))
    (hlen : (encodeName ls).length < 65536) : nameSize name = (encodeName ls).length := by
  have hown := ownBytes_encodeName hls h
  rw [Nat.zero_add] at hown
  exact nameSize_of_ownBytes hown hlen

theorem nameBytes_encodeName (hls : ∀ l ∈ ls, 0 < l.length ∧ l.length < 64) (h : At name 0 (encodeName ls))
    (hlen : (encodeName ls).length < 65536) : nameBytes name = encodeName ls := by
  rw [nameBytes, nameSize_encodeName hls h hlen, h.slice]

end

end Mdns
