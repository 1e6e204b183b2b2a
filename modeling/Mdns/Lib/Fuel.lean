import Mathlib.Logic.Relation
import Mdns.Lib.Loop

/-!
# Calls that are run on fuel

A call is a function of its fuel with one value that stands for not having come back yet. `Stable`
says that what has come back stays, `Comes` what the call comes to in the end.
-/
namespace Mdns.Lib

/-- A call that does not come back with its value: it returned an error, or never returns. -/
inductive Fail where
  | err
  | hang
  deriving DecidableEq, Repr

abbrev Res := Except Fail

/-- The value of a loop, which hangs when the loop does not end. -/
def await {α : Type*} : Option α → Res α
  | some a => .ok a
  | none => .error .hang

theorem exists_ok {ε α : Type*} {x : Except ε α} {p : α → Bool} (h : x.toOption.any p = true) :
    ∃ a, x = .ok a ∧ p a = true := by
  cases x with
  | error e => cases h
  | ok a => exact ⟨a, rfl, h⟩

section
variable {ρ α β : Type*}

/-- Once the call is back with something other than `bot`, more fuel changes nothing. -/
def Stable (bot : ρ) (f : Nat → ρ) : Prop := ∀ n, f n ≠ bot → ∀ m, n ≤ m → f m = f n

/-- With enough fuel the call comes to `r`. -/
def Comes (f : Nat → ρ) (r : ρ) : Prop := ∃ n, ∀ m, n ≤ m → f m = r

theorem comes_const (r : ρ) : Comes (fun _ => r) r := ⟨0, fun _ _ => rfl⟩

theorem stable_const (bot r : ρ) : Stable bot (fun _ => r) := fun _ _ _ _ => rfl

theorem Comes.unique {f : Nat → ρ} {r r' : ρ} (h : Comes f r) (h' : Comes f r') : r = r' := by
  obtain ⟨n, hn⟩ := h
  obtain ⟨m, hm⟩ := h'
  rw [← hn (max n m) (Nat.le_max_left n m), hm (max n m) (Nat.le_max_right n m)]

theorem Comes.map {ρ' : Type*} {f : Nat → ρ} {r : ρ} (h : Comes f r) (g : ρ → ρ') : Comes (fun n => g (f n)) (g r) := by
  obtain ⟨n, hn⟩ := h
  exact ⟨n, fun m hm => congrArg g (hn m hm)⟩

/-- A call goes on with what its first part comes to. -/
theorem Comes.apply_iff {ρ' : Type*} {f : Nat → ρ} {F : Nat → ρ → ρ'} {a : ρ} {r : ρ'} (h : Comes f a) :
    Comes (fun n => F n (f n)) r ↔ Comes (fun n => F n a) r := by
  obtain ⟨n, hn⟩ := h
  have heq : ∀ i, n ≤ i → F i (f i) = F i a := fun i hi => congrArg (F i) (hn i hi)
  constructor
  · rintro ⟨m, hm⟩
    exact ⟨max n m, fun i hi => (heq i (le_of_max_le_left hi)).symm.trans (hm i (le_of_max_le_right hi))⟩
  · rintro ⟨m, hm⟩
    exact ⟨max n m, fun i hi => (heq i (le_of_max_le_left hi)).trans (hm i (le_of_max_le_right hi))⟩

theorem exists_fuel_forall {ι : Type*} {P : Nat → ι → Prop} {l : List ι} (h : ∀ x ∈ l, ∃ n, ∀ m, n ≤ m → P m x) :
    ∃ n, ∀ m, n ≤ m → ∀ x ∈ l, P m x := by
  induction l with
  | nil =>
    refine ⟨0, ?_⟩
    intro m _ x hx
    cases hx
  | cons y l ih =>
    obtain ⟨hy, hl⟩ := List.forall_mem_cons.mp h
    obtain ⟨n, hn⟩ := hy
    obtain ⟨m, hm⟩ := ih hl
    refine ⟨max n m, ?_⟩
    intro i hi
    exact List.forall_mem_cons.mpr ⟨hn i (Nat.le_trans (Nat.le_max_left n m) hi),
      hm i (Nat.le_trans (Nat.le_max_right n m) hi)⟩

theorem Stable.comes {bot : ρ} {f : Nat → ρ} (h : Stable bot f) {n : Nat} (hn : f n ≠ bot) :
    Comes f (f n) := ⟨n, fun m hm => h n hn m hm⟩

theorem Stable.comp {ρ' : Type*} {bot : ρ} {bot' : ρ'} {f : Nat → ρ} {F : ρ → ρ'} (h : Stable bot f)
    (hF : F bot = bot') :
    Stable bot' (fun n => F (f n)) := by
  intro n hn m hm
  have hback : f n ≠ bot := by
    intro hbot
    apply hn
    show F (f n) = bot'
    rw [hbot, hF]
  exact congrArg F (h n hback m hm)

theorem Stable.comes_bot {bot : ρ} {f : Nat → ρ} (h : Stable bot f) (hc : Comes f bot) (n : Nat) :
    f n = bot := by
  by_contra hn
  exact hn ((h.comes hn).unique hc)

theorem Stable.exists_comes {bot : ρ} {f : Nat → ρ} (h : Stable bot f) : ∃ r, Comes f r := by
  by_cases hn : ∃ n, f n ≠ bot
  · obtain ⟨n, hn⟩ := hn
    exact ⟨f n, h.comes hn⟩
  · refine ⟨bot, 0, fun m _ => ?_⟩
    by_contra hm
    exact hn ⟨m, hm⟩

theorem Stable.back_iff {bot : ρ} {f : Nat → ρ} (h : Stable bot f) {r : ρ} (hc : Comes f r) :
    (∃ n, f n ≠ bot) ↔ r ≠ bot := by
  constructor
  · rintro ⟨n, hn⟩ rfl
    exact hn (h.comes_bot hc n)
  · intro hr
    obtain ⟨n, hn⟩ := hc
    exact ⟨n, by rw [hn n (Nat.le_refl n)]; exact hr⟩

theorem Stable.returns_iff {bot : ρ} {f : Nat → ρ} (h : Stable bot f) {r a : ρ} (hc : Comes f r) (ha : a ≠ bot) :
    (∃ n, f n = a) ↔ r = a := by
  constructor
  · rintro ⟨n, rfl⟩
    exact hc.unique (h.comes ha)
  · rintro rfl
    obtain ⟨n, hn⟩ := hc
    exact ⟨n, hn n (Nat.le_refl n)⟩

theorem stable_loop {σ : Type*} (body : σ → σ ⊕ α) (s : σ) : Stable none (fun n => loop body n s) := by
  intro n hn m hm
  cases hl : loop body n s with
  | none => exact absurd hl hn
  | some a =>
    simp only [hl]
    exact loop_mono hm hl

theorem comes_loop {σ : Type*} {body : σ → σ ⊕ α} {s : σ} {a : α} {k : Nat}
    (h : loop body k s = some a) : Comes (fun fuel => loop body fuel s) (some a) :=
  ⟨k, fun _ hm => loop_mono hm h⟩

theorem comes_loop_continue {σ : Type*} {body : σ → σ ⊕ α} {s s' : σ} (h : body s = .inl s') {r : Option α} :
    Comes (fun fuel => loop body fuel s) r ↔ Comes (fun fuel => loop body fuel s') r := by
  constructor
  · rintro ⟨fuel, hf⟩
    refine ⟨fuel, ?_⟩
    intro fuel' hle
    exact (loop_continue h fuel').symm.trans (hf (fuel' + 1) (Nat.le_succ_of_le hle))
  · rintro ⟨fuel, hf⟩
    refine ⟨fuel + 1, ?_⟩
    intro fuel' hle
    obtain ⟨m, rfl⟩ := Nat.exists_eq_add_of_le' (Nat.le_trans (Nat.succ_pos fuel) hle)
    exact (loop_continue h m).trans (hf m (Nat.le_of_succ_le_succ hle))

theorem comes_loop_break {σ : Type*} {body : σ → σ ⊕ α} {s : σ} {a : α} (h : body s = .inr a) {r : Option α} :
    Comes (fun fuel => loop body fuel s) r ↔ r = some a := by
  have ha : Comes (fun fuel => loop body fuel s) (some a) := comes_loop (loop_break h 0)
  constructor
  · intro hr
    exact hr.unique ha
  · rintro rfl
    exact ha

theorem stable_join {f : Nat → Option (Option α)} (h : Stable none f) : Stable none (fun n => (f n).join) := by
  intro n hn m hm
  have hf : f n ≠ none := by
    intro he
    exact hn (by simp only [he, Option.join_none])
  simp only [h n hf m hm]

theorem stable_await {f : Nat → Option α} (h : Stable none f) :
    Stable (.error .hang) (fun n => await (f n)) := by
  intro n hn m hm
  have hf : f n ≠ none := by
    intro he
    exact hn (by simp only [he, await])
  simp only [h n hf m hm]

theorem comes_await {f : Nat → Option α} {a : α} (h : Comes f (some a)) :
    Comes (fun n => await (f n)) (.ok a) := h.map await

theorem comes_await_none {f : Nat → Option α} (h : Comes f none) :
    Comes (fun n => await (f n)) (.error .hang) := h.map await

end

section
variable {α β : Type} {f : Nat → Res α} {g : Nat → α → Res β}

theorem stable_bind (hf : Stable (.error .hang) f) (hg : ∀ a, Stable (.error .hang) (fun n => g n a)) :
    Stable (.error .hang) (fun n => f n >>= g n) := by
  intro n hn m hm
  have hfn : f n ≠ .error .hang := by
    intro he
    exact hn (by simp only [he]; rfl)
  have hfm := hf n hfn m hm
  cases ha : f n with
  | error e => simp only [hfm, ha]; rfl
  | ok a =>
    have hga : g n a ≠ .error .hang := by
      intro he
      exact hn (by simp only [ha]; exact he)
    simp only [hfm, ha]
    exact hg a n hga m hm

theorem comes_bind {a : α} {r : Res β} (hf : Comes f (.ok a)) (hg : Comes (fun n => g n a) r) :
    Comes (fun n => f n >>= g n) r :=
  (hf.apply_iff (F := fun n x => x >>= g n)).mpr hg

theorem comes_bind_error {e : Fail} (hf : Comes f (.error e)) :
    Comes (fun n => f n >>= g n) (.error e) :=
  (hf.apply_iff (F := fun n x => x >>= g n)).mpr (comes_const _)

end

section
variable {α β : Type} {f : Nat → Option α} {g : Nat → α → Option β}

theorem stable_bind_option (hf : Stable none f) (hg : ∀ a, Stable none (fun n => g n a)) :
    Stable none (fun n => f n >>= g n) := by
  intro n hn m hm
  have hback : (f n >>= g n) ≠ none := hn
  show f m >>= g m = f n >>= g n
  cases ha : f n with
  | none =>
    rw [ha] at hback
    exact absurd rfl hback
  | some a =>
    rw [ha] at hback
    rw [(hf n (by rw [ha]; exact Option.some_ne_none a) m hm).trans ha]
    exact hg a n hback m hm

theorem comes_bind_back {a : α} {r : Option β} (hf : Comes f (some a)) :
    Comes (fun n => f n >>= g n) r ↔ Comes (fun n => g n a) r :=
  hf.apply_iff (F := fun n x => x >>= g n)

theorem comes_bind_some {a : α} {r : Option β} (hf : Comes f (some a)) (hg : Comes (fun n => g n a) r) :
    Comes (fun n => f n >>= g n) r :=
  (comes_bind_back hf).mpr hg

theorem comes_bind_none (hf : Comes f none) : Comes (fun n => f n >>= g n) none :=
  (hf.apply_iff (F := fun n x => x >>= g n)).mpr (comes_const none)

theorem comes_bind_iff (hf : Stable none f) {b : β} :
    Comes (fun n => f n >>= g n) (some b) ↔ ∃ a, Comes f (some a) ∧ Comes (fun n => g n a) (some b) := by
  constructor
  · intro h
    obtain ⟨r, hr⟩ := hf.exists_comes
    cases r with
    | none => exact absurd (Comes.unique h (comes_bind_none hr)) nofun
    | some a => exact ⟨a, hr, (comes_bind_back hr).mp h⟩
  · rintro ⟨a, ha, h⟩
    exact comes_bind_some ha h

theorem comes_bind_pure {μ : Type → Type} [Monad μ] [LawfulMonad μ] {α β : Type} {f : Nat → μ α}
    {g : Nat → α → μ β} {a : α}
    {r : μ β} (hf : Comes f (pure a)) (hg : Comes (fun n => g n a) r) : Comes (fun n => f n >>= g n) r := by
  refine (hf.apply_iff (F := fun n x => x >>= g n)).mpr ?_
  simpa only [pure_bind] using hg

theorem comes_some_iff {a b : α} : Comes (fun _ => some a) (some b) ↔ a = b := by
  constructor
  · intro h
    exact Option.some.inj (Comes.unique (comes_const (some a)) h)
  · rintro rfl
    exact comes_const _

end

section
variable {σ α : Type} {body : σ → σ ⊕ α} {s s' : σ} {a : α} {ok : σ → Prop} {P : α → Prop}

def Visits (body : σ → σ ⊕ α) : σ → σ → Prop := Relation.ReflTransGen (fun s s' => body s = .inl s')

/-- The loop returns a result with `P` and comes only through states with `ok`. -/
def RunsWell (body : σ → σ ⊕ α) (ok : σ → Prop) (P : α → Prop) (s : σ) : Prop :=
  (∃ a, Comes (fun n => loop body n s) (some a) ∧ P a) ∧ ∀ s', Visits body s s' → ok s'

theorem visits_continue (h : body s = .inl s') {t : σ} : Visits body s t ↔ s = t ∨ Visits body s' t := by
  refine ⟨fun hv => ?_, fun hv => ?_⟩
  · rcases Relation.ReflTransGen.cases_head hv with rfl | ⟨s'', hs, hv⟩
    · exact .inl rfl
    · rw [h] at hs
      cases hs
      exact .inr hv
  · rcases hv with rfl | hv
    · exact .refl
    · exact .head h hv

theorem visits_break (h : body s = .inr a) {t : σ} : Visits body s t ↔ s = t := by
  refine ⟨fun hv => ?_, fun hv => hv ▸ .refl⟩
  rcases Relation.ReflTransGen.cases_head hv with rfl | ⟨s'', hs, -⟩
  · rfl
  · rw [h] at hs
    cases hs

theorem runsWell_continue (h : body s = .inl s') : RunsWell body ok P s ↔ ok s ∧ RunsWell body ok P s' := by
  have hall : (∀ t, Visits body s t → ok t) ↔ ok s ∧ ∀ t, Visits body s' t → ok t := by
    simp only [visits_continue h, or_imp, forall_and, forall_eq']
  simp only [RunsWell, comes_loop_continue h, hall]
  exact and_left_comm

theorem runsWell_break (h : body s = .inr a) : RunsWell body ok P s ↔ ok s ∧ P a := by
  have hcomes : Comes (fun n => loop body n s) (some a) := comes_loop (loop_break h 0)
  simp only [RunsWell, visits_break h, forall_eq']
  constructor
  · rintro ⟨⟨b, hb, hP⟩, hok⟩
    cases hb.unique hcomes
    exact ⟨hok, hP⟩
  · rintro ⟨hok, hP⟩
    exact ⟨⟨a, hcomes, hP⟩, hok⟩

end

theorem bind_eq_ok {ε α β : Type} {x : Except ε α} {f : α → Except ε β} {b : β} :
    (x >>= f) = .ok b ↔ ∃ a, x = .ok a ∧ f a = .ok b := by
  cases x with
  | ok a => exact ⟨fun h => ⟨a, rfl, h⟩, fun ⟨a', h, h'⟩ => by cases h; exact h'⟩
  | error e => exact ⟨fun h => (nomatch h), fun ⟨_, h, _⟩ => (nomatch h)⟩

end Mdns.Lib
