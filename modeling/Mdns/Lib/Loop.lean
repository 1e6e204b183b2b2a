import Mathlib.Data.Set.Finite.Basic
import Mathlib.Data.Fintype.Pigeonhole
import Mathlib.Logic.Function.Iterate

/-!
# Loops that may not end

A loop body either goes on with a new state or breaks with a result. `loop` runs it for a given fuel
and `none` only says that the fuel is used up.
-/
namespace Mdns.Lib

variable {σ α : Type*} {s : σ} {a : α} {fuel : Nat}

/-- Run a body that continues with `inl` and breaks with `inr`. -/
def loop (body : σ → σ ⊕ α) : Nat → σ → Option α
  | 0, _ => none
  | fuel+1, s => match body s with
    | .inl s' => loop body fuel s'
    | .inr a => some a

@[simp] theorem loop_zero (body : σ → σ ⊕ α) (s : σ) : loop body 0 s = none := rfl

theorem loop_continue {body : σ → σ ⊕ α} {s' : σ} (h : body s = .inl s') (fuel : Nat) :
    loop body (fuel+1) s = loop body fuel s' := by simp only [loop, h]

theorem loop_break {body : σ → σ ⊕ α} (h : body s = .inr a) (fuel : Nat) :
    loop body (fuel+1) s = some a := by simp only [loop, h]

theorem loop_some_cases {body : σ → σ ⊕ α} (h : loop body fuel s = some a) :
    ∃ k, fuel = k + 1 ∧ (body s = .inr a ∨ ∃ s', body s = .inl s' ∧ loop body k s' = some a) := by
  cases fuel with
  | zero => exact absurd h (by simp)
  | succ k =>
    refine ⟨k, rfl, ?_⟩
    cases hb : body s with
    | inl s' => exact .inr ⟨s', rfl, by rwa [loop_continue hb] at h⟩
    | inr b =>
      rw [loop_break hb] at h
      exact .inl (congrArg Sum.inr (Option.some.inj h))

/-- Partial correctness: what every break establishes and every round carries back
holds between the first state and the result. -/
theorem loop_rule {body : σ → σ ⊕ α} {P : σ → α → Prop} (hbreak : ∀ s a, body s = .inr a → P s a)
    (hround : ∀ s s' a, body s = .inl s' → P s' a → P s a) (h : loop body fuel s = some a) : P s a := by
  induction fuel generalizing s with
  | zero => exact absurd h (by simp)
  | succ fuel ih =>
    obtain ⟨k, hk, hb | ⟨s', hs, hl⟩⟩ := loop_some_cases h
    · exact hbreak s a hb
    · cases hk
      exact hround s s' a hs (ih hl)

theorem loop_mono {body : σ → σ ⊕ α} {more : Nat}
    (hle : fuel ≤ more) (h : loop body fuel s = some a) : loop body more s = some a := by
  induction fuel generalizing s more with
  | zero => exact absurd h (by simp)
  | succ fuel ih =>
    obtain ⟨more, rfl⟩ := Nat.exists_eq_succ_of_ne_zero (Nat.ne_of_gt (Nat.lt_of_lt_of_le (Nat.succ_pos fuel) hle))
    obtain ⟨k, hk, hb | ⟨s', hs, hl⟩⟩ := loop_some_cases h
    · exact loop_break hb more
    · cases hk
      rw [Nat.succ_eq_add_one, loop_continue hs]
      exact ih (Nat.le_of_succ_le_succ hle) hl

theorem loop_variant {body : σ → σ ⊕ α} (variant : σ → Nat)
    (hround : ∀ s s', body s = .inl s' → variant s' < variant s) (s : σ) :
    ∃ a, loop body (variant s + 1) s = some a := by
  induction hv : variant s using Nat.strong_induction_on generalizing s with
  | _ v ih =>
    subst hv
    cases hb : body s with
    | inr a => exact ⟨a, loop_break hb _⟩
    | inl s' =>
      have hlt := hround s s' hb
      obtain ⟨a, ha⟩ := ih (variant s') hlt s' rfl
      exact ⟨a, (loop_continue hb _).trans (loop_mono hlt ha)⟩

section
variable (f : σ → σ) (stop : σ → Prop) {s : σ} {k : Nat}

/-- The `k`-th state is the first that stops the walk. -/
def StopsAt (s : σ) (k : Nat) : Prop := stop (f^[k] s) ∧ ∀ i < k, ¬ stop (f^[i] s)

/-- The walk is at one state twice and nothing has stopped it until then. -/
def Circles (s : σ) : Prop := ∃ i j, i < j ∧ f^[i] s = f^[j] s ∧ ∀ k ≤ j, ¬ stop (f^[k] s)

variable {f stop}

theorem exists_stopsAt (h : stop (f^[k] s)) : ∃ k, StopsAt f stop s k := by
  classical
  have hex : ∃ k, stop (f^[k] s) := ⟨k, h⟩
  exact ⟨Nat.find hex, Nat.find_spec hex, fun i hi => Nat.find_min hex hi⟩

theorem StopsAt.unique {l : Nat} (hk : StopsAt f stop s k) (hl : StopsAt f stop s l) : k = l := by
  rcases Nat.lt_trichotomy k l with h | h | h
  · exact absurd hk.1 (hl.2 k h)
  · exact h
  · exact absurd hl.1 (hk.2 l h)

theorem Circles.never (h : Circles f stop s) (k : Nat) : ¬ stop (f^[k] s) := by
  obtain ⟨i, j, hij, heq, hfree⟩ := h
  induction k using Nat.strong_induction_on with
  | _ k ih =>
    by_cases hk : k ≤ j
    · exact hfree k hk
    · -- past the second visit the state is the one of a whole turn before
      obtain ⟨d, rfl⟩ := Nat.exists_eq_add_of_lt (Nat.lt_of_not_le hk)
      have hback : f^[j + d + 1] s = f^[d + 1 + i] s := by
        rw [Nat.add_assoc, Nat.add_comm j, Function.iterate_add_apply, ← heq, ← Function.iterate_add_apply]
      rw [hback]
      exact ih (d + 1 + i) (by omega)

theorem circles_of_never (hfin : {t | ¬ stop t}.Finite) (h : ∀ k, ¬ stop (f^[k] s)) :
    Circles f stop s := by
  have := hfin.to_subtype
  obtain ⟨i, j, hne, heq⟩ :=
    Finite.exists_ne_map_eq_of_infinite (fun k => (⟨f^[k] s, h k⟩ : {t | ¬ stop t}))
  have hst : f^[i] s = f^[j] s := congrArg Subtype.val heq
  rcases Nat.lt_or_gt_of_ne hne with hlt | hgt
  · exact ⟨i, j, hlt, hst, fun k _ => h k⟩
  · exact ⟨j, i, hgt, hst.symm, fun k _ => h k⟩

theorem stopsAt_or_circles (hfin : {t | ¬ stop t}.Finite) (s : σ) :
    (∃ k, StopsAt f stop s k) ∨ Circles f stop s := by
  by_cases h : ∃ k, stop (f^[k] s)
  · obtain ⟨k, hk⟩ := h
    exact .inl (exists_stopsAt hk)
  · exact .inr (circles_of_never hfin (fun k hk => h ⟨k, hk⟩))

theorem iterate_congr {g : σ → σ} (hfg : ∀ t, ¬ stop t → f t = g t)
    (h : ∀ i < k, ¬ stop (f^[i] s)) : ∀ i ≤ k, f^[i] s = g^[i] s := by
  intro i hi
  induction i with
  | zero => rfl
  | succ i ih =>
    rw [Function.iterate_succ_apply', Function.iterate_succ_apply', ← ih (Nat.le_of_succ_le hi)]
    exact hfg _ (h i hi)

theorem StopsAt.congr {g : σ → σ} {stop' : σ → Prop} (hfg : ∀ t, ¬ stop t → f t = g t)
    (hstop : ∀ t, stop t ↔ stop' t) (h : StopsAt f stop s k) :
    StopsAt g stop' s k ∧ g^[k] s = f^[k] s := by
  have hit := iterate_congr hfg h.2
  refine ⟨⟨?_, fun i hi => ?_⟩, (hit k (Nat.le_refl k)).symm⟩
  · rw [← hit k (Nat.le_refl k), ← hstop]
    exact h.1
  · rw [← hit i (Nat.le_of_lt hi), ← hstop]
    exact h.2 i hi

theorem loop_iterate {body : σ → σ ⊕ α} (hgo : ∀ s, ¬ stop s → body s = .inl (f s))
    (h : ∀ i < k, ¬ stop (f^[i] s)) (fuel : Nat) : loop body (fuel + k) s = loop body fuel (f^[k] s) := by
  induction k generalizing s with
  | zero => rfl
  | succ k ih =>
    rw [← Nat.add_assoc, loop_continue (hgo s (h 0 (Nat.succ_pos k)))]
    exact ih (fun i hi => h (i + 1) (Nat.succ_lt_succ hi))

theorem loop_stopsAt {body : σ → σ ⊕ α} {out : σ → α} (hstop : ∀ s, stop s → body s = .inr (out s))
    (hgo : ∀ s, ¬ stop s → body s = .inl (f s)) (h : StopsAt f stop s k) :
    loop body (k + 1) s = some (out (f^[k] s)) := by
  induction k generalizing s with
  | zero => exact loop_break (hstop s h.1) 0
  | succ k ih =>
    rw [loop_continue (hgo s (h.2 0 (Nat.succ_pos k)))]
    exact ih ⟨h.1, fun i hi => h.2 (i + 1) (Nat.succ_lt_succ hi)⟩

theorem loop_never {body : σ → σ ⊕ α} (hgo : ∀ s, ¬ stop s → body s = .inl (f s))
    (h : ∀ k, ¬ stop (f^[k] s)) (fuel : Nat) : loop body fuel s = none := by
  induction fuel generalizing s with
  | zero => rfl
  | succ fuel ih =>
    rw [loop_continue (hgo s (h 0))]
    exact ih (fun k => h (k + 1))

end

end Mdns.Lib
