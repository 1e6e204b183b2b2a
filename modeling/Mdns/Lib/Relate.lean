import Mdns.Lib.Fold

/-!
# Two readings of one computation

Computations that may not return are related when both return related results or neither returns.
The rules follow the code: a relation is carried through a sequence, a choice and a run over a list.
-/
namespace Mdns.Lib

variable {α β γ δ σ τ : Type} {r : α → β → Prop} {r' : γ → δ → Prop} {x : Option α} {y : Option β}

theorem rel_some_left {a : α} (h : Option.Rel r (some a) y) : ∃ b, y = some b ∧ r a b := by
  cases h with
  | some hab => exact ⟨_, rfl, hab⟩

theorem rel_some_right {b : β} (h : Option.Rel r x (some b)) : ∃ a, x = some a ∧ r a b := by
  cases h with
  | some hab => exact ⟨_, rfl, hab⟩

theorem rel_bind {f : α → Option γ} {g : β → Option δ} (h : Option.Rel r x y)
    (hfg : ∀ a b, r a b → Option.Rel r' (f a) (g b)) : Option.Rel r' (x >>= f) (y >>= g) := by
  cases h with
  | some hab => exact hfg _ _ hab
  | none => exact .none

/-- The same computation on both sides. -/
theorem rel_bind_same {z : Option σ} {f : σ → Option γ} {g : σ → Option δ}
    (hfg : ∀ a, z = some a → Option.Rel r' (f a) (g a)) : Option.Rel r' (z >>= f) (z >>= g) := by
  cases hz : z with
  | none => exact .none
  | some a => exact hfg a hz

/-- What the right side is known to keep. -/
theorem rel_and {p : β → Prop} (h : Option.Rel r x y) (hp : ∀ b, y = some b → p b) :
    Option.Rel (fun a b => r a b ∧ p b) x y := by
  cases h with
  | some hab => exact .some ⟨hab, hp _ rfl⟩
  | none => exact .none

theorem rel_map {f : α → γ} {g : β → δ} (h : Option.Rel r x y) (hfg : ∀ a b, r a b → r' (f a) (g b)) :
    Option.Rel r' (x.map f) (y.map g) := by
  cases h with
  | some hab => exact .some (hfg _ _ hab)
  | none => exact .none

theorem rel_ite {c : Prop} [Decidable c] {x x' : Option α} {y y' : Option β} (h : c → Option.Rel r x y)
    (h' : ¬ c → Option.Rel r x' y') : Option.Rel r (if c then x else x') (if c then y else y') := by
  by_cases hc : c
  · rw [if_pos hc, if_pos hc]
    exact h hc
  · rw [if_neg hc, if_neg hc]
    exact h' hc

theorem rel_runAll {R : σ → τ → Prop} {f : σ → α → Option σ} {g : τ → α → Option τ} {l : List α}
    (hstep : ∀ s t, ∀ a ∈ l, R s t → Option.Rel R (f s a) (g t a)) {s : σ} {t : τ} (h : R s t) :
    Option.Rel R (runAll f l s) (runAll g l t) := by
  induction l generalizing s t with
  | nil => exact .some h
  | cons a l ih =>
    have hhead := hstep s t a (List.mem_cons_self ..) h
    have htail := fun s t b hb => hstep s t b (List.mem_cons_of_mem a hb)
    unfold runAll
    generalize f s a = x at hhead ⊢
    generalize g t a = y at hhead ⊢
    cases hhead with
    | none => exact .none
    | some h' => exact ih htail h'

theorem rel_guarded {R : σ → τ → Prop} {ok : σ → α → Bool} {ok' : τ → α → Bool} {f : σ → α → Option σ}
    {g : τ → α → Option τ} {s : σ} {t : τ} {a : α} (hok : ok s a = ok' t a)
    (h : ok' t a = true → Option.Rel R (f s a) (g t a)) : Option.Rel R (guarded ok f s a) (guarded ok' g t a) := by
  unfold guarded
  rw [hok]
  exact rel_ite h (fun _ => .none)

end Mdns.Lib
