import Mdns.Dname.Chain

/-!
# What the packet alone decides about a name

The walk of `dname_overrun` is followed only as far as the bytes of the packet go. The byte behind
the packet matters only where a pointer starts on the last byte, and only through the place to which
it completes the pointer.
-/
namespace Mdns
open Lib

inductive Fate where
  | ends
  | leaves
  | circles
  | cut
  deriving DecidableEq, Repr

section
variable (p : Mem) (e : Nat) {s : Bool × Nat} {q : Mem}

def Cut (s : Bool × Nat) : Prop := s.2 = e ∧ isPointer (byte p e) = true

def Halt (s : Bool × Nat) : Prop := Verdict p e s ∨ Cut p e s

instance : DecidablePred (Cut p e) :=
  fun s => inferInstanceAs (Decidable (s.2 = e ∧ isPointer (byte p e) = true))

instance : DecidablePred (Halt p e) :=
  fun s => inferInstanceAs (Decidable (Verdict p e s ∨ Cut p e s))

def haltFate (s : Bool × Nat) : Fate := if e < s.2 then .leaves else if Cut p e s then .cut else .ends

open Classical in
noncomputable def fate (s : Bool × Nat) : Fate :=
  if h : ∃ k, StopsAt (walkStep p) (Halt p e) s k then haltFate p e ((walkStep p)^[h.choose] s) else .circles

variable {p e}

theorem fate_of_stopsAt {k : Nat} (h : StopsAt (walkStep p) (Halt p e) s k) :
    fate p e s = haltFate p e ((walkStep p)^[k] s) := by
  have hex : ∃ k, StopsAt (walkStep p) (Halt p e) s k := ⟨k, h⟩
  rw [fate, dif_pos hex, hex.choose_spec.unique h]

theorem fate_of_never (h : ∀ k, ¬ Halt p e ((walkStep p)^[k] s)) : fate p e s = .circles := by
  rw [fate, dif_neg]
  rintro ⟨k, hk⟩
  exact h k hk.1

theorem stopsAt_or_never (s : Bool × Nat) :
    (∃ k, StopsAt (walkStep p) (Halt p e) s k) ∨ ∀ k, ¬ Halt p e ((walkStep p)^[k] s) := by
  by_cases h : ∃ k, Halt p e ((walkStep p)^[k] s)
  · obtain ⟨k, hk⟩ := h
    exact .inl (exists_stopsAt hk)
  · exact .inr (fun k hk => h ⟨k, hk⟩)

theorem Cut.not_verdict (h : Cut p e s) : ¬ Verdict p e s := by
  obtain ⟨b, n⟩ := s
  obtain ⟨rfl, hp⟩ := h
  rintro (hlt | ⟨-, hz⟩)
  · exact Nat.lt_irrefl _ hlt
  · rw [hz] at hp
    exact absurd hp (by decide)

theorem walkStep_agree (h : Agree (e + 1) p q) (hs : ¬ Halt p e s) :
    walkStep p s = walkStep q s := by
  obtain ⟨b, n⟩ := s
  have hn : n ≤ e := Nat.le_of_not_lt (fun hlt => hs (.inl (.inl hlt)))
  simp only [walkStep, hop, ← h.byte (Nat.lt_succ_of_le hn)]
  by_cases hp : isPointer (byte p n) = true
  · have hne : n ≠ e := fun he => hs (.inr ⟨he, he ▸ hp⟩)
    have hlt : n + 1 < e + 1 := by omega
    rw [if_pos hp, if_pos hp, pointer, pointer, h.byte hlt, h.byte (Nat.lt_succ_of_le hn)]
  · rw [if_neg hp, if_neg hp]

theorem cut_agree (h : Agree (e + 1) p q) (s : Bool × Nat) : Cut p e s ↔ Cut q e s := by
  unfold Cut
  rw [h.byte (Nat.lt_succ_self e)]

theorem halt_agree (h : Agree (e + 1) p q) (s : Bool × Nat) : Halt p e s ↔ Halt q e s := by
  unfold Halt
  rw [cut_agree h s]
  obtain ⟨b, n⟩ := s
  refine or_congr_left ?_
  by_cases hn : e < n
  · exact ⟨fun _ => .inl hn, fun _ => .inl hn⟩
  · simp only [Verdict, h.byte (Nat.lt_succ_of_le (Nat.le_of_not_lt hn))]

theorem fate_agree (h : Agree (e + 1) p q) (s : Bool × Nat) : fate p e s = fate q e s := by
  have hstep : ∀ t, ¬ Halt p e t → walkStep p t = walkStep q t := fun t => walkStep_agree h
  rcases stopsAt_or_never (p := p) (e := e) s with ⟨k, hk⟩ | hnever
  · obtain ⟨hk', hit⟩ := hk.congr hstep (halt_agree h)
    rw [fate_of_stopsAt hk, fate_of_stopsAt hk', hit, haltFate, haltFate]
    simp only [cut_agree h]
  · rw [fate_of_never hnever, fate_of_never]
    intro k hk
    have hit := iterate_congr hstep (fun i _ => hnever i) k (Nat.le_refl k)
    rw [← hit, ← halt_agree h] at hk
    exact hnever k hk

end

/-- The verdict on a name with this fate, `next` being the fate of the place that a pointer
on the last byte leads to. -/
def settle : Fate → Fate → Option Bool
  | .ends, _ => some false
  | .leaves, _ => some true
  | .circles, _ => none
  | .cut, .ends => some false
  | .cut, .leaves => some true
  | .cut, .circles => none
  | .cut, .cut => none

section
variable {p : Mem} {e : Nat} {s : Bool × Nat}

theorem comes_of_iterate {k : Nat} (h : ∀ i < k, ¬ Verdict p e ((walkStep p)^[i] s))
    {r : Option Bool} (hr : Comes (fun fuel => loop (overrunBody p e) fuel ((walkStep p)^[k] s)) r) :
    Comes (fun fuel => loop (overrunBody p e) fuel s) r := by
  obtain ⟨n, hn⟩ := hr
  refine ⟨n + k, fun m hm => ?_⟩
  obtain ⟨d, rfl⟩ := Nat.exists_eq_add_of_le hm
  have hsum : n + k + d = n + d + k := by omega
  exact (congrArg (fun fuel => loop (overrunBody p e) fuel s) hsum).trans
    ((loop_iterate overrunBody_go h _).trans (hn _ (Nat.le_add_right n d)))

theorem settle_haltFate (h : haltFate p e s ≠ .cut) (next : Fate) :
    settle (haltFate p e s) next = some (decide (e < s.2)) := by
  unfold haltFate at h ⊢
  by_cases hlt : e < s.2
  · simp [hlt, settle]
  · by_cases hc : Cut p e s
    · simp [hlt, hc] at h
    · simp [hlt, hc, settle]

theorem cut_of_haltFate (h : haltFate p e s = .cut) : Cut p e s := by
  unfold haltFate at h
  split at h
  · cases h
  · split at h
    · assumption
    · cases h

theorem overrun_of_not_cut (h : fate p e s ≠ .cut) (next : Fate) :
    Comes (fun fuel => loop (overrunBody p e) fuel s) (settle (fate p e s) next) := by
  rcases stopsAt_or_never (p := p) (e := e) s with ⟨k, hk⟩ | hnever
  · rw [fate_of_stopsAt hk] at h ⊢
    have hv : Verdict p e ((walkStep p)^[k] s) := by
      refine hk.1.resolve_right (fun hc => h ?_)
      rw [haltFate, if_neg (Nat.not_lt_of_le (Nat.le_of_eq hc.1)), if_pos hc]
    rw [settle_haltFate h]
    exact comes_of_iterate (fun i hi hv => hk.2 i hi (.inl hv)) (comes_loop (loop_break (overrunBody_stop _ hv) 0))
  · rw [fate_of_never hnever]
    exact ⟨0, fun fuel _ => loop_never overrunBody_go (fun k hk => hnever k (.inl hk)) fuel⟩

theorem cut_goes_on (h : fate p e s = .cut) :
    ∃ k, (walkStep p)^[k + 1] s = (true, pointer p e) ∧ ∀ i ≤ k, ¬ Verdict p e ((walkStep p)^[i] s) := by
  obtain ⟨k, hk⟩ : ∃ k, StopsAt (walkStep p) (Halt p e) s k := by
    refine (stopsAt_or_never s).resolve_right (fun hnever => ?_)
    rw [fate_of_never hnever] at h
    cases h
  rw [fate_of_stopsAt hk] at h
  have hcut := cut_of_haltFate h
  refine ⟨k, ?_, fun i hi => ?_⟩
  · rw [Function.iterate_succ_apply', ← Prod.mk.eta (p := (walkStep p)^[k] s), hcut.1]
    simp only [walkStep, hop, hcut.2, if_true]
  · rcases Nat.lt_or_eq_of_le hi with hlt | rfl
    · exact fun hv => hk.2 i hlt (.inl hv)
    · exact hcut.not_verdict

theorem circles_of_cut_twice (h : fate p e (true, pointer p e) = .cut) :
    Circles (walkStep p) (Verdict p e) (true, pointer p e) := by
  obtain ⟨k, hback, hfree⟩ := cut_goes_on h
  refine ⟨0, k + 1, Nat.succ_pos k, hback.symm, fun i hi => ?_⟩
  rcases Nat.lt_or_eq_of_le hi with hlt | rfl
  · exact hfree i (Nat.le_of_lt_succ hlt)
  · rw [hback]
    exact hfree 0 (Nat.zero_le k)

/-- The verdict on a name, from what the packet decides and from where the byte behind the
packet makes a pointer on its last byte lead. -/
theorem dnameOverrun_settles (p : Mem) (e n : Nat) :
    Comes (fun fuel => dnameOverrun fuel p e n)
      (settle (fate p e (false, n)) (fate p e (true, pointer p e))) := by
  by_cases hcut : fate p e (false, n) = .cut
  · obtain ⟨k, hnext, hfree⟩ := cut_goes_on hcut
    refine comes_of_iterate (k := k + 1) (fun i hi => hfree i (Nat.le_of_lt_succ hi)) ?_
    rw [hnext, hcut]
    by_cases hagain : fate p e (true, pointer p e) = .cut
    · rw [hagain]
      exact ⟨0, fun fuel _ => loop_never overrunBody_go (circles_of_cut_twice hagain).never fuel⟩
    · have hr := overrun_of_not_cut hagain .ends
      cases hf : fate p e (true, pointer p e) <;> simp_all [settle]
  · exact overrun_of_not_cut hcut _

end

end Mdns
