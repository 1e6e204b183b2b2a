import Mdns.Lib.Fuel

/-!
# Calls that keep a log

`Does` says what a call comes to and that all it logs is right, `Strays` that it cannot come back
without having logged something that is not, and `Erases` what is left of it without the log.
-/
namespace Mdns.Lib
open List

/-- A call with a log of entries; `none` is a call that is not back yet. -/
abbrev Logged (γ α : Type) := StateT (List γ) Option α

section
variable {γ α β α' β' : Type} {ok : γ → Prop} {a : α} {b : β} {t : List γ}
  {x : Logged γ α} {log entries : List γ}

def logged (entries : List γ) (a : α) : Logged γ α := fun log => some (a, entries ++ log)

/-- With enough fuel the call comes to `a`, and what it logs is all right. -/
def Does (ok : γ → Prop) (x : Nat → Logged γ α) (a : α) : Prop :=
  ∃ (new : List γ) (n : Nat), (∀ e ∈ new, ok e) ∧ ∀ log fuel, n ≤ fuel → (x fuel).run log = some (a, new ++ log)

/-- With enough fuel the call does not come back without a wrong entry in the log. -/
def Strays (ok : γ → Prop) (x : Nat → Logged γ α) : Prop :=
  ∃ n, ∀ log fuel, n ≤ fuel → ∀ a log', (x fuel).run log = some (a, log') → ∃ e ∈ log', ¬ ok e

def Grows (x : Logged γ α) : Prop := ∀ log a log', x.run log = some (a, log') → ∀ e ∈ log, e ∈ log'

/-- Without its log, and seen through `φ`, the call is this one. -/
def Erases (φ : α → α') (x : Logged γ α) (f : Option α') : Prop := ∀ log, (x.run log).map (fun r => φ r.1) = f

theorem run_bind_eq_some {y : α → Logged γ β} {log' : List γ} :
    (x >>= y).run log = some (b, log') ↔ ∃ a mid, x.run log = some (a, mid) ∧ (y a).run mid = some (b, log') := by
  show (x log).bind (fun r => y r.1 r.2) = some (b, log') ↔ _
  rw [Option.bind_eq_some_iff]
  exact Prod.exists

theorem does_logged (h : ∀ e ∈ entries, ok e) : Does ok (fun _ => logged entries a) a :=
  ⟨entries, 0, h, fun _ _ _ => rfl⟩

theorem does_pure (a : α) : Does ok (fun _ => (pure a : Logged γ α)) a := ⟨[], 0, by simp, fun _ _ _ => rfl⟩

theorem Does.bind {x : Nat → Logged γ α} {y : Nat → α → Logged γ β} (hx : Does ok x a)
    (hy : Does ok (fun fuel => y fuel a) b) :
    Does ok (fun fuel => x fuel >>= y fuel) b := by
  obtain ⟨new, n, hnew, hn⟩ := hx
  obtain ⟨new', n', hnew', hn'⟩ := hy
  refine ⟨new' ++ new, max n n', fun e he => (mem_append.mp he).elim (hnew' e) (hnew e), fun log fuel hfuel => ?_⟩
  rw [run_bind_eq_some]
  refine ⟨a, new ++ log, hn log fuel (le_of_max_le_left hfuel), ?_⟩
  rw [append_assoc]
  exact hn' (new ++ log) fuel (le_of_max_le_right hfuel)

theorem Does.step {x y : Nat → Logged γ α} (h : ∀ fuel, x (fuel + 1) = y fuel) (hy : Does ok y a) : Does ok x a := by
  obtain ⟨new, n, hnew, hn⟩ := hy
  refine ⟨new, n + 1, hnew, fun log fuel hfuel => ?_⟩
  obtain ⟨fuel, rfl⟩ := Nat.exists_eq_add_of_le' (Nat.le_trans (Nat.succ_pos n) hfuel)
  rw [h]
  exact hn log fuel (Nat.le_of_succ_le_succ hfuel)

theorem Does.comes {x : Nat → Logged γ α} (h : Does ok x a) :
    ∃ log, Comes (fun fuel => (x fuel).run []) (some (a, log)) ∧ ∀ e ∈ log, ok e := by
  obtain ⟨new, n, hnew, hn⟩ := h
  refine ⟨new, ⟨n, fun fuel hfuel => ?_⟩, hnew⟩
  have hrun := hn [] fuel hfuel
  rw [append_nil] at hrun
  exact hrun

theorem Strays.step {x y : Nat → Logged γ α} (h : ∀ fuel, x (fuel + 1) = y fuel) (hy : Strays ok y) : Strays ok x := by
  obtain ⟨n, hn⟩ := hy
  refine ⟨n + 1, fun log fuel hfuel => ?_⟩
  obtain ⟨fuel, rfl⟩ := Nat.exists_eq_add_of_le' (Nat.le_trans (Nat.succ_pos n) hfuel)
  rw [h]
  exact hn log fuel (Nat.le_of_succ_le_succ hfuel)

theorem Strays.bind {x : Nat → Logged γ α} {y : Nat → α → Logged γ β} (hx : Strays ok x)
    (hy : ∀ fuel a, Grows (y fuel a)) :
    Strays ok (fun fuel => x fuel >>= y fuel) := by
  obtain ⟨n, hn⟩ := hx
  refine ⟨n, fun log fuel hfuel b log' hrun => ?_⟩
  obtain ⟨a, mid, hfirst, hrest⟩ := run_bind_eq_some.mp hrun
  obtain ⟨e, he, hbad⟩ := hn log fuel hfuel a mid hfirst
  exact ⟨e, hy fuel a mid b log' hrest e he, hbad⟩

theorem Does.strays {x : Nat → Logged γ α} {y : Nat → α → Logged γ β} (hx : Does ok x a)
    (hy : Strays ok (fun fuel => y fuel a)) :
    Strays ok (fun fuel => x fuel >>= y fuel) := by
  obtain ⟨new, n, -, hn⟩ := hx
  obtain ⟨n', hn'⟩ := hy
  refine ⟨max n n', fun log fuel hfuel b log' hrun => ?_⟩
  obtain ⟨a', mid, hfirst, hrest⟩ := run_bind_eq_some.mp hrun
  rw [hn log fuel (le_of_max_le_left hfuel)] at hfirst
  cases hfirst
  exact hn' (new ++ log) fuel (le_of_max_le_right hfuel) b log' hrest

theorem Strays.not_comes {x : Nat → Logged γ α} (h : Strays ok x)
    (hcomes : Comes (fun fuel => (x fuel).run []) (some (a, log))) : ¬ ∀ e ∈ log, ok e := by
  obtain ⟨n, hn⟩ := h
  obtain ⟨n', hn'⟩ := hcomes
  intro hok
  obtain ⟨e, he, hbad⟩ := hn [] (max n n') (Nat.le_max_left n n') a log (hn' _ (Nat.le_max_right n n'))
  exact hbad (hok e he)

theorem grows_logged (entries : List γ) (a : α) : Grows (logged entries a) := by
  intro log a' log' h e he
  cases h
  exact mem_append_right entries he

theorem grows_pure (a : α) : Grows (pure a : Logged γ α) := by
  intro log a' log' h e he
  cases h
  exact he

theorem grows_failure : Grows (failure : Logged γ α) := by
  intro log a' log' h
  cases h

theorem Grows.bind {y : α → Logged γ β} (hx : Grows x) (hy : ∀ a, Grows (y a)) : Grows (x >>= y) := by
  intro log b log' hrun e he
  obtain ⟨a, mid, hfirst, hrest⟩ := run_bind_eq_some.mp hrun
  exact hy a mid b log' hrest e (hx log a mid hfirst e he)

theorem strays_logged {e : γ} (he : e ∈ entries) (hbad : ¬ ok e) : Strays ok (fun _ => logged entries a) := by
  refine ⟨0, fun log fuel _ a' log' hrun => ?_⟩
  cases hrun
  exact ⟨e, mem_append_left log he, hbad⟩

theorem erases_pure (φ : α → α') (a : α) : Erases φ (pure a : Logged γ α) (some (φ a)) := fun _ => rfl

theorem erases_failure (φ : α → α') : Erases φ (failure : Logged γ α) none := fun _ => rfl

theorem Erases.bind {φ : α → α'} {ψ : β → β'} {y : α → Logged γ β} {f : Option α'} {g : α' → Option β'}
    (hx : Erases φ x f) (hy : ∀ a, Erases ψ (y a) (g (φ a))) : Erases ψ (x >>= y) (f >>= g) := by
  intro log
  show ((x log).bind (fun r => y r.1 r.2)).map (fun r => ψ r.1) = f.bind g
  rw [← hx log]
  show _ = ((x log).map (fun r => φ r.1)).bind g
  cases hrun : x log with
  | none => rfl
  | some r => exact hy r.1 r.2

theorem Does.erased {x : Nat → Logged γ α} {φ : α → α'} {f : Nat → Option α'} (h : Does ok x a)
    (hf : ∀ fuel, Erases φ (x fuel) (f fuel)) : Comes f (some (φ a)) := by
  obtain ⟨new, n, -, hn⟩ := h
  refine ⟨n, fun fuel hfuel => ?_⟩
  rw [← hf fuel [], hn [] fuel hfuel]
  rfl

theorem Erases.after {ψ : β → β'} {y : α → Logged γ β} {g : Option β'} (h : Erases ψ (y a) g) (entries : List γ) :
    Erases ψ (logged entries a >>= y) g := fun log => h (entries ++ log)

end

end Mdns.Lib
