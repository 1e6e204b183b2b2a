import Mdns.Dname.Chain

/-!
# A name's own bytes

`dname_size` reads labels until a zero byte or a pointer. Memory is finite, so it always
returns; what it returns depends only on the bytes that it counts.
-/
namespace Mdns
open Lib

variable {k c c' start d : Nat} {p : Mem}

def labelHop (p : Mem) (d : Nat) : Nat := d + byte p d + 1

def OwnStop (p : Mem) (d : Nat) : Prop := byte p d = 0 ∨ isPointer (byte p d) = true

/-- The offset behind the zero byte or the pointer at `d`. -/
def ownEnd (p : Mem) (d : Nat) : Nat := if byte p d = 0 then d + 1 else d + 2

/-- The own bytes of the name at `c` are those below `c'`. -/
def OwnBytes (p : Mem) (c c' : Nat) : Prop :=
  ∃ k, StopsAt (labelHop p) (OwnStop p) c k ∧ c' = ownEnd p ((labelHop p)^[k] c)

theorem lt_ownEnd (p : Mem) (d : Nat) : d < ownEnd p d := by
  unfold ownEnd
  split <;> omega

theorem le_labelHop_iterate (p : Mem) (c k : Nat) : c + k ≤ (labelHop p)^[k] c := by
  induction k generalizing c with
  | zero => exact Nat.le_refl c
  | succ k ih =>
    rw [Function.iterate_succ_apply]
    have h := ih (labelHop p c)
    unfold labelHop at h ⊢
    omega

theorem labelHop_iterate_mono (p : Mem) (c : Nat) {i : Nat} (h : i ≤ k) :
    (labelHop p)^[i] c ≤ (labelHop p)^[k] c := by
  obtain ⟨d, rfl⟩ := Nat.exists_eq_add_of_le h
  rw [Nat.add_comm, Function.iterate_add_apply]
  exact Nat.le_trans (Nat.le_add_right _ d) (le_labelHop_iterate p _ d)

theorem exists_ownStop (p : Mem) (c : Nat) : ∃ k ≤ p.length, StopsAt (labelHop p) (OwnStop p) c k := by
  have hstop : OwnStop p ((labelHop p)^[p.length] c) :=
    .inl (byte_eq_zero_of_length_le (Nat.le_trans (Nat.le_add_left _ c) (le_labelHop_iterate p c p.length)))
  obtain ⟨k, hk⟩ := exists_stopsAt (f := labelHop p) hstop
  exact ⟨k, Nat.le_of_not_lt (fun h => hk.2 _ h hstop), hk⟩

theorem OwnBytes.unique {c'' : Nat} (h : OwnBytes p c c') (h' : OwnBytes p c c'') : c' = c'' := by
  obtain ⟨k, hk, rfl⟩ := h
  obtain ⟨l, hl, rfl⟩ := h'
  rw [hk.unique hl]

theorem OwnBytes.lt (h : OwnBytes p c c') : c < c' := by
  obtain ⟨k, -, rfl⟩ := h
  exact Nat.lt_of_le_of_lt (Nat.le_trans (Nat.le_add_right c k) (le_labelHop_iterate p c k)) (lt_ownEnd p _)

theorem sizeBody_stop (h : OwnStop p d) :
    sizeBody p start d = .inr ((ownEnd p d : Int) - start) := by
  unfold sizeBody ownEnd
  rcases h with h | h
  · simp only [h, if_true]; push_cast; congr 1; omega
  · by_cases hz : byte p d = 0
    · simp only [hz, if_true]; push_cast; congr 1; omega
    · simp only [hz, h, if_true, if_false]; push_cast; congr 1; omega

theorem sizeBody_go (h : ¬ OwnStop p d) :
    sizeBody p start d = .inl (labelHop p d) := by
  obtain ⟨hzero, hptr⟩ := not_or.mp h
  have hlen : ¬ byte p d > maxLabelLen := by
    have h64 : ¬ 64 ≤ byte p d := fun h64 => hptr (isPointer_iff.mpr h64)
    unfold maxLabelLen
    omega
  simp only [sizeBody, if_neg hzero, if_neg hptr, if_neg hlen, labelHop]

theorem dnameSize_loop (hk : StopsAt (labelHop p) (OwnStop p) c k) :
    dnameSize (k + 1) p c = some ((ownEnd p ((labelHop p)^[k] c) : Int) - c) :=
  loop_stopsAt (fun _ h => sizeBody_stop h) (fun _ h => sizeBody_go h) hk

theorem dnameSize_eq (h : OwnBytes p c c') {fuel : Nat} (hf : p.length < fuel) :
    dnameSize fuel p c = some ((c' : Int) - c) := by
  obtain ⟨k, hk, rfl⟩ := h
  obtain ⟨l, hle, hl⟩ := exists_ownStop p c
  rw [hl.unique hk] at hle
  exact loop_mono (Nat.succ_le_of_lt (Nat.lt_of_le_of_lt hle hf)) (dnameSize_loop hk)

theorem exists_ownBytes (p : Mem) (c : Nat) : ∃ c', OwnBytes p c c' := by
  obtain ⟨k, -, hk⟩ := exists_ownStop p c
  exact ⟨_, k, hk, rfl⟩

theorem OwnBytes.agree {mlen : Nat} {q : Mem} (hpq : Agree mlen p q) (h : OwnBytes p c c')
    (hle : c' ≤ mlen) : OwnBytes q c c' := by
  obtain ⟨k, hk, rfl⟩ := h
  have hin : ∀ i ≤ k, (labelHop p)^[i] c < mlen := fun i hi =>
    Nat.lt_of_le_of_lt (labelHop_iterate_mono p c hi) (Nat.lt_of_lt_of_le (lt_ownEnd p _) hle)
  have hsame : ∀ i ≤ k, (labelHop q)^[i] c = (labelHop p)^[i] c := by
    intro i hi
    induction i with
    | zero => rfl
    | succ i ih =>
      have hi' := Nat.le_of_succ_le hi
      rw [Function.iterate_succ_apply', Function.iterate_succ_apply', ih hi', labelHop, labelHop,
        hpq.byte (hin i hi')]
  have hstop : ∀ i ≤ k, OwnStop q ((labelHop q)^[i] c) ↔ OwnStop p ((labelHop p)^[i] c) := by
    intro i hi
    rw [hsame i hi, OwnStop, OwnStop, hpq.byte (hin i hi)]
  refine ⟨k, ⟨(hstop k (Nat.le_refl k)).mpr hk.1, fun i hi => ?_⟩, ?_⟩
  · rw [hstop i (Nat.le_of_lt hi)]
    exact hk.2 i hi
  · rw [hsame k (Nat.le_refl k), ownEnd, ownEnd, hpq.byte (hin k (Nat.le_refl k))]

end Mdns
