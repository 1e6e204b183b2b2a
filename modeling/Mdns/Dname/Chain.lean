import Mdns.Dname.Walk
import Mdns.Lib.Fuel
import Mathlib.Data.Finite.Prod
import Mathlib.Data.Set.Finite.Lattice
import Mathlib.Order.Interval.Finset.Nat

/-!
# Where a name leads

A name is a chain of hops over the packet: past a label, or along a compression pointer to anywhere
below offset 16384.
-/
namespace Mdns
open Lib

def hop (p : Mem) (n : Nat) : Nat := if isPointer (byte p n) then pointer p n else n + byte p n + 1

section natural
variable (p : Mem)

/-- The bytes that a hop from this offset reads lie below `mlen`. -/
def Inside (mlen n : Nat) : Prop := n < mlen ∧ (isPointer (byte p n) = true → n + 1 < mlen)

/-- Labels and pointers lead from `n`, inside the first `mlen` bytes, to a zero byte. -/
def SafeName (mlen n : Nat) : Prop :=
  ∃ k, (hop p)^[k] n < mlen ∧ byte p ((hop p)^[k] n) = 0 ∧ ∀ i < k, Inside p mlen ((hop p)^[i] n)

def AtEnd (e n : Nat) : Prop := e < n ∨ byte p n = 0

instance (e : Nat) : DecidablePred (AtEnd p e) := fun n => inferInstanceAs (Decidable (e < n ∨ byte p n = 0))

def RunsOut (e n : Nat) : Prop := ∃ k, StopsAt (hop p) (AtEnd p e) n k ∧ e < (hop p)^[k] n

def Loops (e n : Nat) : Prop := Circles (hop p) (AtEnd p e) n

/-- The chain comes to a pointer whose first byte is the last one of the packet. -/
def CutPointer (e n : Nat) : Prop :=
  ∃ k, (hop p)^[k] n = e ∧ isPointer (byte p e) = true ∧ ∀ i ≤ k, ¬ AtEnd p e ((hop p)^[i] n)

variable {p}

theorem finite_not_atEnd (e : Nat) : {n | ¬ AtEnd p e n}.Finite :=
  (Set.finite_le_nat e).subset (fun _ hn => Nat.le_of_not_lt (fun h => hn (.inl h)))

theorem safeName_of_stopsAt {e n k : Nat} (hk : StopsAt (hop p) (AtEnd p e) n k)
    (hle : (hop p)^[k] n ≤ e) (hcut : ¬ CutPointer p e n) : SafeName p (e + 1) n := by
  have hzero : byte p ((hop p)^[k] n) = 0 := hk.1.resolve_left (Nat.not_lt_of_le hle)
  refine ⟨k, Nat.lt_succ_of_le hle, hzero, fun i hi => ⟨?_, fun hp => ?_⟩⟩
  · exact Nat.lt_succ_of_le (Nat.le_of_not_lt (fun h => hk.2 i hi (.inl h)))
  · have hne : (hop p)^[i] n ≠ e := by
      intro he
      refine hcut ⟨i, he, by rwa [he] at hp, fun j hj => ?_⟩
      exact hk.2 j (Nat.lt_of_le_of_lt hj hi)
    have hin : (hop p)^[i] n ≤ e := Nat.le_of_not_lt (fun h => hk.2 i hi (.inl h))
    omega

theorem safeName_iff {e n : Nat} :
    SafeName p (e + 1) n ↔ ¬ RunsOut p e n ∧ ¬ Loops p e n ∧ ¬ CutPointer p e n := by
  constructor
  · rintro ⟨k, hlt, hzero, hin⟩
    -- the first stop lies at or before the zero byte, so it is inside
    have hend : AtEnd p e ((hop p)^[k] n) := .inr hzero
    obtain ⟨l, hl⟩ := exists_stopsAt (f := hop p) hend
    have hlk : l ≤ k := Nat.le_of_not_lt (fun h => hl.2 k h (.inr hzero))
    have hinside : ∀ i ≤ k, (hop p)^[i] n ≤ e := fun i hi => by
      rcases Nat.lt_or_eq_of_le hi with h | rfl
      · exact Nat.le_of_lt_succ (hin i h).1
      · exact Nat.le_of_lt_succ hlt
    refine ⟨fun ⟨l', hl', hout⟩ => ?_, fun hc => hc.never l hl.1, fun ⟨i, hie, hp, hfree⟩ => ?_⟩
    · rw [hl'.unique hl] at hout
      exact Nat.not_lt_of_le (hinside l hlk) hout
    · have hik : i < k := Nat.lt_of_not_le (fun h => hfree k h (.inr hzero))
      have := (hin i hik).2 (by rw [hie]; exact hp)
      omega
  · rintro ⟨hout, hloop, hcut⟩
    obtain ⟨k, hk⟩ := (stopsAt_or_circles (finite_not_atEnd e) n).resolve_right hloop
    exact safeName_of_stopsAt hk (Nat.le_of_not_lt (fun h => hout ⟨k, hk, h⟩)) hcut

end natural

section overrun
variable (p : Mem) (e : Nat) {n : Nat}

def walkStep : Bool × Nat → Bool × Nat
  | (_, n) => (isPointer (byte p n), hop p n)

/-- `dname_overrun` has its verdict outside the packet, and on a zero byte unless a pointer
led to it. -/
def Verdict : Bool × Nat → Prop
  | (jumped, n) => e < n ∨ (jumped = false ∧ byte p n = 0)

instance : DecidablePred (Verdict p e) :=
  fun s => inferInstanceAs (Decidable (e < s.2 ∨ (s.1 = false ∧ byte p s.2 = 0)))

def Ends (n : Nat) : Prop :=
  ∃ k, StopsAt (walkStep p) (Verdict p e) (false, n) k ∧ (hop p)^[k] n ≤ e

def Leaves (n : Nat) : Prop :=
  ∃ k, StopsAt (walkStep p) (Verdict p e) (false, n) k ∧ e < (hop p)^[k] n

def Cyclic (n : Nat) : Prop := Circles (walkStep p) (Verdict p e) (false, n)

variable {p e}

theorem walkStep_iterate_snd (k : Nat) (b : Bool) (n : Nat) :
    ((walkStep p)^[k] (b, n)).2 = (hop p)^[k] n := by
  induction k generalizing b n with
  | zero => rfl
  | succ k ih => exact ih _ _

theorem finite_not_verdict : {s | ¬ Verdict p e s}.Finite := by
  refine ((Set.finite_univ (α := Bool)).prod (Set.finite_le_nat e)).subset ?_
  rintro ⟨b, n⟩ hn
  exact ⟨Set.mem_univ b, Nat.le_of_not_lt (fun h => hn (.inl h))⟩

theorem le_of_not_verdict {b : Bool} {k : Nat} (h : ¬ Verdict p e ((walkStep p)^[k] (b, n))) :
    (hop p)^[k] n ≤ e := by
  rw [← walkStep_iterate_snd k b n]
  exact Nat.le_of_not_lt (fun hlt => h (.inl hlt))

theorem overrunBody_stop (s : Bool × Nat) (h : Verdict p e s) :
    overrunBody p e s = .inr (decide (e < s.2)) := by
  obtain ⟨b, n⟩ := s
  rcases h with h | ⟨rfl, h⟩
  · simp [overrunBody, h]
  · by_cases hn : e < n <;> simp [overrunBody, h, hn]

theorem overrunBody_go (s : Bool × Nat) (h : ¬ Verdict p e s) :
    overrunBody p e s = .inl (walkStep p s) := by
  obtain ⟨b, n⟩ := s
  have hn : ¬ n > e := fun hn => h (.inl hn)
  have hz : ¬ (!b && decide (byte p n = 0)) = true := by
    intro hz
    simp only [Bool.and_eq_true, Bool.not_eq_true', decide_eq_true_eq] at hz
    exact h (.inr hz)
  simp only [overrunBody, if_neg hn, if_neg hz, walkStep, hop]
  cases isPointer (byte p n) <;> rfl

theorem Ends.overrun (h : Ends p e n) :
    Comes (fun fuel => dnameOverrun fuel p e n) (some false) := by
  obtain ⟨k, hk, hle⟩ := h
  have hl := loop_stopsAt overrunBody_stop overrunBody_go hk
  rw [walkStep_iterate_snd, decide_eq_false (Nat.not_lt_of_le hle)] at hl
  exact comes_loop hl

theorem Leaves.overrun (h : Leaves p e n) :
    Comes (fun fuel => dnameOverrun fuel p e n) (some true) := by
  obtain ⟨k, hk, hlt⟩ := h
  have hl := loop_stopsAt overrunBody_stop overrunBody_go hk
  rw [walkStep_iterate_snd, decide_eq_true hlt] at hl
  exact comes_loop hl

theorem Cyclic.overrun (h : Cyclic p e n) :
    Comes (fun fuel => dnameOverrun fuel p e n) none :=
  ⟨0, fun fuel _ => loop_never overrunBody_go h.never fuel⟩

theorem ends_or_leaves_or_cyclic (p : Mem) (e n : Nat) : Ends p e n ∨ Leaves p e n ∨ Cyclic p e n := by
  rcases stopsAt_or_circles (f := walkStep p) (finite_not_verdict (p := p) (e := e)) (false, n) with ⟨k, hk⟩ | hc
  · rcases Nat.lt_or_ge e ((hop p)^[k] n) with h | h
    · exact .inr (.inl ⟨k, hk, h⟩)
    · exact .inl ⟨k, hk, h⟩
  · exact .inr (.inr hc)

theorem Ends.not_cyclic (h : Ends p e n) : ¬ Cyclic p e n := by
  obtain ⟨k, hk, -⟩ := h
  exact fun hc => hc.never k hk.1

theorem Leaves.not_ends (h : Leaves p e n) : ¬ Ends p e n :=
  fun h' => absurd (h.overrun.unique h'.overrun) (by simp)

theorem Leaves.not_cyclic (h : Leaves p e n) : ¬ Cyclic p e n :=
  fun h' => absurd (h.overrun.unique h'.overrun) (by simp)

theorem ends_of_overrun {fuel : Nat} (h : dnameOverrun fuel p e n = some false) : Ends p e n := by
  have hc : Comes (fun fuel => dnameOverrun fuel p e n) (some false) := comes_loop h
  rcases ends_or_leaves_or_cyclic p e n with h' | h' | h'
  · exact h'
  · exact absurd (hc.unique h'.overrun) (by simp)
  · exact absurd (hc.unique h'.overrun) (by simp)

/-- An accepted name neither leaves the packet nor loops, also when the walk is not taken
past a zero byte that a pointer leads to. -/
theorem Ends.stopsAt (h : Ends p e n) :
    ∃ k, StopsAt (hop p) (AtEnd p e) n k ∧ (hop p)^[k] n ≤ e := by
  obtain ⟨k, hk, hle⟩ := h
  have hin : ∀ i ≤ k, (hop p)^[i] n ≤ e := fun i hi => by
    rcases Nat.lt_or_eq_of_le hi with hlt | rfl
    · exact le_of_not_verdict (hk.2 i hlt)
    · exact hle
  have hend : AtEnd p e ((hop p)^[k] n) := by
    have hv := hk.1
    rw [← Prod.mk.eta (p := (walkStep p)^[k] (false, n)), walkStep_iterate_snd] at hv
    exact hv.imp id And.right
  obtain ⟨l, hl⟩ := exists_stopsAt (f := hop p) hend
  have hlk : l ≤ k := Nat.le_of_not_lt (fun hlt => hl.2 k hlt hend)
  exact ⟨l, hl, hin l hlk⟩

theorem Ends.safeName_iff (h : Ends p e n) : SafeName p (e + 1) n ↔ ¬ CutPointer p e n := by
  obtain ⟨k, hk, hle⟩ := h.stopsAt
  exact ⟨fun hs => (Mdns.safeName_iff.mp hs).2.2, fun hc => safeName_of_stopsAt hk hle hc⟩

end overrun

end Mdns
