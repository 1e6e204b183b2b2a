import Mathlib.Algebra.Ring.Nat
import Mathlib.Tactic.Common
import Mdns.Lib.Fuel

/-!
# Running a step over a list

A step may fail to return; then the whole run does. What every step that meets a condition preserves
is preserved by the run.
-/
namespace Mdns.Lib
open List

variable {σ α : Type*}

def runAll (f : σ → α → Option σ) : List α → σ → Option σ
  | [], s => some s
  | a :: as, s => match f s a with
    | none => none
    | some s' => runAll f as s'

/-- The step where the condition is met, and nothing elsewhere. -/
def guarded (ok : σ → α → Bool) (f : σ → α → Option σ) (s : σ) (a : α) : Option σ :=
  if ok s a then f s a else none

/-- What a run calls on its way, up to the step that does not return. -/
def traceAll {β : Type*} (f : σ → α → Option σ) (calls : σ → α → List β) : List α → σ → List β
  | [], _ => []
  | a :: as, s => calls s a ++ match f s a with
    | none => []
    | some s' => traceAll f calls as s'

variable {f g : σ → α → Option σ}

theorem runAll_cons_eq_some {a : α} {as : List α} {s s'' : σ} :
    runAll f (a :: as) s = some s'' ↔ ∃ s', f s a = some s' ∧ runAll f as s' = some s'' := by
  cases h : f s a with
  | none => simp [runAll, h]
  | some s' => simp [runAll, h]

theorem guarded_eq_some {ok : σ → α → Bool} {s s' : σ} {a : α} :
    guarded ok f s a = some s' ↔ ok s a = true ∧ f s a = some s' := by
  unfold guarded
  split <;> simp_all

theorem runAll_keeps {I : σ → Prop} (hstep : ∀ s a s', f s a = some s' → I s → I s') {as : List α} {s s' : σ}
    (h : runAll f as s = some s') (hs : I s) : I s' := by
  induction as generalizing s with
  | nil =>
    cases h
    exact hs
  | cons a as ih =>
    obtain ⟨t, hf, ht⟩ := runAll_cons_eq_some.mp h
    exact ih ht (hstep s a t hf hs)

theorem runAll_singleton (a : α) (s : σ) : runAll f [a] s = f s a := by
  cases h : f s a with
  | none => simp [runAll, h]
  | some s' => simp [runAll, h]

theorem runAll_append_eq_some {as bs : List α} {s s'' : σ} :
    runAll f (as ++ bs) s = some s'' ↔ ∃ s', runAll f as s = some s' ∧ runAll f bs s' = some s'' := by
  induction as generalizing s with
  | nil => simp [runAll]
  | cons a as ih =>
    simp only [cons_append, runAll_cons_eq_some, ih]
    constructor
    · rintro ⟨t, hf, s', hs, hb⟩
      exact ⟨s', ⟨t, hf, hs⟩, hb⟩
    · rintro ⟨s', ⟨t, hf, hs⟩, hb⟩
      exact ⟨t, hf, s', hs, hb⟩

theorem exists_runAll_of_chosen {β : Type*} {choose : σ → β → α} {bs : List β} {s s' : σ}
    (h : runAll (fun s b => f s (choose s b)) bs s = some s') : ∃ as, runAll f as s = some s' := by
  induction bs generalizing s with
  | nil => exact ⟨[], h⟩
  | cons b bs ih =>
    obtain ⟨t, hf, ht⟩ := runAll_cons_eq_some.mp h
    obtain ⟨as, has⟩ := ih ht
    exact ⟨choose s b :: as, runAll_cons_eq_some.mpr ⟨t, hf, has⟩⟩

section trace
variable {β : Type*} {calls : σ → α → List β} {as : List α} {s : σ}

theorem forall_mem_traceAll {I : σ → Prop} {P : β → Prop} (hstep : ∀ s a s', f s a = some s' → I s → I s')
    (hcalls : ∀ s, ∀ a ∈ as, I s → ∀ b ∈ calls s a, P b) (hs : I s) : ∀ b ∈ traceAll f calls as s, P b := by
  induction as generalizing s with
  | nil =>
    intro b hb
    cases hb
  | cons a as ih =>
    obtain ⟨hfirst, hrest⟩ := forall_and.mp (fun s => forall_mem_cons.mp (hcalls s))
    intro b hb
    rcases mem_append.mp hb with hb | hb
    · exact hfirst s hs b hb
    · cases hf : f s a with
      | none =>
        rw [hf] at hb
        cases hb
      | some s' =>
        rw [hf] at hb
        exact ih hrest (hstep s a s' hf hs) b hb

theorem mem_traceAll {a : α} {b : β} (hstay : ∀ a ∈ as, f s a = some s) (ha : a ∈ as) (hb : b ∈ calls s a) :
    b ∈ traceAll f calls as s := by
  induction as with
  | nil => cases ha
  | cons x xs ih =>
    obtain ⟨hx, hxs⟩ := forall_mem_cons.mp hstay
    unfold traceAll
    rw [hx]
    rcases mem_cons.mp ha with rfl | ha
    · exact mem_append_left _ hb
    · exact mem_append_right _ (ih hxs ha)

theorem runAll_stays (hstay : ∀ a ∈ as, f s a = some s) : runAll f as s = some s := by
  induction as with
  | nil => rfl
  | cons x xs ih =>
    obtain ⟨hx, hxs⟩ := forall_mem_cons.mp hstay
    exact runAll_cons_eq_some.mpr ⟨s, hx, ih hxs⟩

end trace

theorem comes_runAll_cons {f : Nat → σ → α → Option σ} {a : α} {as : List α} {s s' : σ} {r : Option σ}
    (h : Comes (fun fuel => f fuel s a) (some s')) (h' : Comes (fun fuel => runAll (f fuel) as s') r) :
    Comes (fun fuel => runAll (f fuel) (a :: as) s) r := by
  obtain ⟨fuel, hf⟩ := h
  obtain ⟨fuel', hr⟩ := h'
  refine ⟨max fuel fuel', ?_⟩
  intro more hmore
  have hfirst : f more s a = some s' := hf more (by omega)
  dsimp only [runAll]
  rw [hfirst]
  exact hr more (by omega)

theorem comes_runAll_append {f : Nat → σ → α → Option σ} {as bs : List α} {s s' : σ} {r : Option σ}
    (h : Comes (fun fuel => runAll (f fuel) as s) (some s')) (h' : Comes (fun fuel => runAll (f fuel) bs s') r) :
    Comes (fun fuel => runAll (f fuel) (as ++ bs) s) r := by
  obtain ⟨fuel, hf⟩ := h
  obtain ⟨fuel', hr⟩ := h'
  refine ⟨max fuel fuel', ?_⟩
  intro more hmore
  have hfirst := hf more (by omega)
  have hrest := hr more (by omega)
  dsimp only at hfirst hrest ⊢
  cases r with
  | some s'' => exact runAll_append_eq_some.mpr ⟨s', hfirst, hrest⟩
  | none =>
    refine Option.eq_none_iff_forall_ne_some.mpr ?_
    intro s'' hsome
    obtain ⟨t, ht, hb⟩ := runAll_append_eq_some.mp hsome
    cases hfirst.symm.trans ht
    cases hrest.symm.trans hb

theorem comes_runAll_stays {f : Nat → σ → α → Option σ} {as : List α} {s : σ}
    (h : ∀ a ∈ as, Comes (fun fuel => f fuel s a) (some s)) :
    Comes (fun fuel => runAll (f fuel) as s) (some s) := by
  induction as with
  | nil => exact comes_const _
  | cons a as ih =>
    obtain ⟨ha, has⟩ := forall_mem_cons.mp h
    exact comes_runAll_cons ha (ih has)

/-- Only one input of the run matters. -/
theorem comes_runAll_among {f : Nat → σ → α → Option σ} {as bs : List α} {a : α} {s : σ} {r : Option σ}
    (has : ∀ x ∈ as, Comes (fun fuel => f fuel s x) (some s)) (ha : Comes (fun fuel => f fuel s a) r)
    (hbs : ∀ s' ∈ r, ∀ x ∈ bs, Comes (fun fuel => f fuel s' x) (some s')) :
    Comes (fun fuel => runAll (f fuel) (as ++ a :: bs) s) r := by
  refine comes_runAll_append (comes_runAll_stays has) ?_
  cases r with
  | some s' => exact comes_runAll_cons ha (comes_runAll_stays (hbs s' rfl))
  | none =>
    obtain ⟨fuel, hf⟩ := ha
    refine ⟨fuel, fun more hmore => ?_⟩
    dsimp only [runAll]
    rw [show f more s a = none from hf more hmore]

/-- Total correctness: a run returns when what is needed for the rest of the list lets every step
return. -/
theorem runAll_returns {I : List α → σ → Prop} (hstep : ∀ a l s, I (a :: l) s → ∃ s', f s a = some s' ∧ I l s')
    {l : List α} {s : σ} (h : I l s) : ∃ s', runAll f l s = some s' ∧ I [] s' := by
  induction l generalizing s with
  | nil => exact ⟨s, rfl, h⟩
  | cons a l ih =>
    obtain ⟨t, hf, ht⟩ := hstep a l s h
    obtain ⟨s', hs', hI⟩ := ih ht
    exact ⟨s', runAll_cons_eq_some.mpr ⟨t, hf, hs'⟩, hI⟩

/-- The states that a run goes through, with what each step has done. -/
inductive Steps (R : σ → α → σ → Prop) : List α → σ → σ → Prop where
  | nil (s : σ) : Steps R [] s s
  | cons {a : α} {as : List α} {s s' s'' : σ} : R s a s' → Steps R as s' s'' → Steps R (a :: as) s s''

theorem steps_of_runAll {I : σ → Prop} {R : σ → α → σ → Prop} {as : List α} {s s' : σ}
    (hstep : ∀ s, ∀ a ∈ as, ∀ s', I s → f s a = some s' → R s a s' ∧ I s') (h : runAll f as s = some s') (hs : I s) :
    Steps R as s s' ∧ I s' := by
  induction as generalizing s with
  | nil =>
    cases h
    exact ⟨.nil _, hs⟩
  | cons a as ih =>
    obtain ⟨t, hf, ht⟩ := runAll_cons_eq_some.mp h
    obtain ⟨hR, hI⟩ := hstep s a (mem_cons_self ..) t hs hf
    obtain ⟨hsteps, hI'⟩ := ih (fun s b hb => hstep s b (mem_cons_of_mem a hb)) ht hI
    exact ⟨.cons hR hsteps, hI'⟩

theorem runAll_mono (hfg : ∀ s a s', f s a = some s' → g s a = some s') {as : List α} {s s' : σ}
    (h : runAll f as s = some s') : runAll g as s = some s' := by
  induction as generalizing s with
  | nil => exact h
  | cons a as ih =>
    obtain ⟨t, hf, ht⟩ := runAll_cons_eq_some.mp h
    exact runAll_cons_eq_some.mpr ⟨t, hfg s a t hf, ih ht⟩

end Mdns.Lib
