import Mathlib.Data.Fintype.Basic
import Mdns.Lib.Fold

/-!
# Hosts that broadcast

Every message reaches every other host, in any order, before a host takes its next timeout.
`Defends` lists what a host must do so that no two hosts come to own one name.
-/
namespace Mdns.Lib
open List

/-- What sets off a round of a host. -/
inductive Trigger (μ : Type) where
  | recv (m : μ)
  | timeout
  | other

/-- The program of the hosts: what a round is set off by, and the state and the messages that it
comes to, if it returns. -/
structure Protocol (ι σ μ α : Type) where
  event : α → Trigger μ
  round : ι → σ → α → Option (σ × List μ)

/-- The state of each host, and the messages that it has not received yet. -/
structure Net (ι σ μ : Type) where
  node : ι → σ
  inbox : ι → List μ

/-- A round of a host, or a message of a stranger to it. -/
inductive NetMove (ι μ α : Type) where
  | round (i : ι) (a : α)
  | foreign (i : ι) (m : μ)

section net
variable {ι σ μ α : Type} [DecidableEq ι] [Fintype ι] [DecidableEq μ]

/-- A message is received once it is there, and a timeout comes when no message is left. -/
def Net.Enabled (net : Net ι σ μ) (i : ι) : Trigger μ → Prop
  | .recv m => m ∈ net.inbox i
  | .timeout => ∀ j, net.inbox j = []
  | .other => True

instance (net : Net ι σ μ) (i : ι) (e : Trigger μ) : Decidable (net.Enabled i e) :=
  match e with
  | .recv m => inferInstanceAs (Decidable (m ∈ net.inbox i))
  | .timeout => inferInstanceAs (Decidable (∀ j, net.inbox j = []))
  | .other => inferInstanceAs (Decidable True)

def Net.left (net : Net ι σ μ) (i : ι) : Trigger μ → List μ
  | .recv m => (net.inbox i).erase m
  | .timeout | .other => net.inbox i

/-- The host is in its new state, and what it has sent is on its way to all others. -/
def Net.after (net : Net ι σ μ) (i : ι) (e : Trigger μ) (s : σ) (out : List μ) : Net ι σ μ where
  node := fun j => if j = i then s else net.node j
  inbox := fun j => if j = i then net.left i e else net.inbox j ++ out

def Net.takes (net : Net ι σ μ) (i : ι) (m : μ) : Net ι σ μ :=
  { net with inbox := fun j => if j = i then net.inbox j ++ [m] else net.inbox j }

def Protocol.fire (P : Protocol ι σ μ α) (net : Net ι σ μ) : NetMove ι μ α → Option (Net ι σ μ)
  | .round i a =>
    if net.Enabled i (P.event a) then
      (P.round i (net.node i) a).map (fun x => net.after i (P.event a) x.1 x.2)
    else none
  | .foreign i m => some (net.takes i m)

variable {P : Protocol ι σ μ α} {net net' : Net ι σ μ} {i j : ι} {e : Trigger μ} {s : σ} {out : List μ} {m : μ}

theorem Protocol.fire_cases {mv : NetMove ι μ α} (h : P.fire net mv = some net') :
    (∃ i a s out, P.round i (net.node i) a = some (s, out) ∧ net.Enabled i (P.event a) ∧
      net' = net.after i (P.event a) s out) ∨ ∃ i m, net' = net.takes i m := by
  cases mv with
  | round i a =>
    simp only [Protocol.fire] at h
    split at h
    · next hready =>
      obtain ⟨⟨s, out⟩, hround, rfl⟩ := Option.map_eq_some_iff.mp h
      exact .inl ⟨i, a, s, out, hround, hready, rfl⟩
    · cases h
  | foreign i m =>
    cases h
    exact .inr ⟨i, m, rfl⟩

omit [Fintype ι] in
theorem Net.after_node_self : (net.after i e s out).node i = s := if_pos rfl

omit [Fintype ι] in
theorem Net.after_node_of_ne (h : j ≠ i) : (net.after i e s out).node j = net.node j := if_neg h

omit [Fintype ι] in
theorem Net.after_inbox_self : (net.after i e s out).inbox i = net.left i e := if_pos rfl

omit [Fintype ι] in
theorem Net.after_inbox_of_ne (h : j ≠ i) : (net.after i e s out).inbox j = net.inbox j ++ out := if_neg h

omit [Fintype ι] in
theorem Net.mem_after (net : Net ι σ μ) (i : ι) (e : Trigger μ) (s : σ) (out : List μ) (h : m ∈ net.inbox j) :
    m ∈ (net.after i e s out).inbox j ∨ (j = i ∧ e = .recv m) := by
  by_cases hj : j = i
  · subst hj
    rw [Net.after_inbox_self]
    cases e with
    | recv m' =>
      by_cases hm : m = m'
      · exact .inr ⟨rfl, by rw [hm]⟩
      · exact .inl ((mem_erase_of_ne hm).mpr h)
    | timeout => exact .inl h
    | other => exact .inl h
  · rw [Net.after_inbox_of_ne hj]
    exact .inl (mem_append_left out h)

omit [Fintype ι] in
theorem Net.mem_after_sent (hj : j ≠ i) (h : m ∈ out) : m ∈ (net.after i e s out).inbox j := by
  rw [Net.after_inbox_of_ne hj]
  exact mem_append_right _ h

omit [Fintype ι] [DecidableEq μ] in
theorem Net.mem_takes {m' : μ} (h : m ∈ net.inbox j) : m ∈ (net.takes i m').inbox j := by
  show m ∈ if j = i then net.inbox j ++ [m'] else net.inbox j
  split
  · exact mem_append_left _ h
  · exact h

end net

section defence
variable {ι σ μ α ν : Type}

/-- What is asked of the program. Whether a message is a claim can depend on who receives it. -/
structure Defends (P : Protocol ι σ μ α) (ok : ι → σ → Prop) (owns seeks : σ → ν → Prop) (asks : μ → ν → Prop)
    (claims : ι → μ → ν → Prop) : Prop where
  keeps : ∀ {i s a s' out}, ok i s → P.round i s a = some (s', out) → ok i s'
  owned : ∀ {i s a s' out f}, ok i s → P.round i s a = some (s', out) → owns s' f →
    owns s f ∨ (P.event a = .timeout ∧ seeks s f ∧ ∀ j, j ≠ i → ∃ c ∈ out, claims j c f)
  sought : ∀ {i s a s' out f}, ok i s → P.round i s a = some (s', out) → seeks s' f →
    seeks s f ∨ (P.event a = .timeout ∧ ∃ q ∈ out, asks q f)
  answers : ∀ {i s a s' out f m}, ok i s → P.round i s a = some (s', out) → P.event a = .recv m → asks m f → owns s' f →
    ∀ j, j ≠ i → ∃ c ∈ out, claims j c f
  yields : ∀ {i s a s' out f m}, ok i s → P.round i s a = some (s', out) → P.event a = .recv m →
    claims i m f → ¬ seeks s' f

/-- No two hosts own one name. If one seeks the name of another, its question or the answer is on its
way. -/
structure Exclusive (ok : ι → σ → Prop) (owns seeks : σ → ν → Prop) (asks : μ → ν → Prop) (claims : ι → μ → ν → Prop)
    (net : Net ι σ μ) : Prop where
  ok : ∀ i, ok i (net.node i)
  single : ∀ {i j f}, i ≠ j → owns (net.node i) f → ¬ owns (net.node j) f
  pending : ∀ {i j f}, i ≠ j → owns (net.node i) f → seeks (net.node j) f →
    (∃ m ∈ net.inbox i, asks m f) ∨ ∃ m ∈ net.inbox j, claims j m f

variable [DecidableEq ι] [DecidableEq μ] {P : Protocol ι σ μ α} {ok : ι → σ → Prop} {owns seeks : σ → ν → Prop}
  {asks : μ → ν → Prop} {claims : ι → μ → ν → Prop} {net net' : Net ι σ μ} {i j k : ι} {a : α} {s : σ}
  {out : List μ} {f : ν}

omit [DecidableEq μ] in
theorem Exclusive.takes (h : Exclusive ok owns seeks asks claims net) (k : ι) (m : μ) :
    Exclusive ok owns seeks asks claims (net.takes k m) where
  ok := h.ok
  single := h.single
  pending := by
    intro i j f hij hown hseek
    apply (h.pending hij hown hseek).imp
    · exact fun ⟨m', hm', hasks⟩ => ⟨m', Net.mem_takes hm', hasks⟩
    · exact fun ⟨m', hm', hclaims⟩ => ⟨m', Net.mem_takes hm', hclaims⟩

omit [DecidableEq ι] [DecidableEq μ] in
theorem Exclusive.quiet (h : Exclusive ok owns seeks asks claims net) (hquiet : ∀ j, net.inbox j = []) (hij : i ≠ j)
    (hown : owns (net.node i) f) : ¬ seeks (net.node j) f := by
  intro hseek
  rcases h.pending hij hown hseek with ⟨m, hm, -⟩ | ⟨m, hm, -⟩
  · rw [hquiet] at hm
    cases hm
  · rw [hquiet] at hm
    cases hm

section round
variable (hP : Defends P ok owns seeks asks claims) (h : Exclusive ok owns seeks asks claims net)
  (hround : P.round k (net.node k) a = some (s, out)) (hready : net.Enabled k (P.event a))
include hP h hround hready

theorem Exclusive.owned_after (hown : owns ((net.after k (P.event a) s out).node i) f) :
    owns (net.node i) f ∨
      (i = k ∧ (∀ j, net.inbox j = []) ∧ seeks (net.node k) f ∧ ∀ j, j ≠ k → ∃ c ∈ out, claims j c f) := by
  by_cases hi : i = k
  · subst hi
    rw [Net.after_node_self] at hown
    rcases hP.owned (h.ok i) hround hown with hold | ⟨hevent, hseek, hclaims⟩
    · exact .inl hold
    · rw [hevent] at hready
      exact .inr ⟨rfl, hready, hseek, hclaims⟩
  · rw [Net.after_node_of_ne hi] at hown
    exact .inl hown

theorem Exclusive.sought_after (hseek : seeks ((net.after k (P.event a) s out).node i) f) :
    seeks (net.node i) f ∨ (i = k ∧ (∀ j, net.inbox j = []) ∧ ∃ q ∈ out, asks q f) := by
  by_cases hi : i = k
  · subst hi
    rw [Net.after_node_self] at hseek
    rcases hP.sought (h.ok i) hround hseek with hold | ⟨hevent, hasks⟩
    · exact .inl hold
    · rw [hevent] at hready
      exact .inr ⟨rfl, hready, hasks⟩
  · rw [Net.after_node_of_ne hi] at hseek
    exact .inl hseek

theorem Exclusive.single_after (hij : i ≠ j) (hi : owns ((net.after k (P.event a) s out).node i) f) :
    ¬ owns ((net.after k (P.event a) s out).node j) f := by
  intro hj
  rcases h.owned_after hP hround hready hi with hi' | ⟨rfl, hquiet, hseek, -⟩
  · rcases h.owned_after hP hround hready hj with hj' | ⟨rfl, hquiet, hseek, -⟩
    · exact h.single hij hi' hj'
    · exact h.quiet hquiet hij hi' hseek
  · rcases h.owned_after hP hround hready hj with hj' | ⟨rfl, -, -, -⟩
    · exact h.quiet hquiet hij.symm hj' hseek
    · exact hij rfl

theorem Exclusive.pending_after (hij : i ≠ j) (hi : owns ((net.after k (P.event a) s out).node i) f)
    (hj : seeks ((net.after k (P.event a) s out).node j) f) :
    (∃ m ∈ (net.after k (P.event a) s out).inbox i, asks m f) ∨
      ∃ m ∈ (net.after k (P.event a) s out).inbox j, claims j m f := by
  rcases h.owned_after hP hround hready hi with hown | ⟨rfl, -, -, hclaims⟩
  · rcases h.sought_after hP hround hready hj with hseek | ⟨rfl, -, q, hq, hasks⟩
    · rcases h.pending hij hown hseek with ⟨m, hm, hasks⟩ | ⟨m, hm, hclaims⟩
      · rcases net.mem_after k (P.event a) s out hm with hstill | ⟨rfl, hevent⟩
        · exact .inl ⟨m, hstill, hasks⟩
        · rw [Net.after_node_self] at hi
          obtain ⟨c, hc, hclaims⟩ := hP.answers (h.ok i) hround hevent hasks hi j hij.symm
          exact .inr ⟨c, Net.mem_after_sent hij.symm hc, hclaims⟩
      · rcases net.mem_after k (P.event a) s out hm with hstill | ⟨rfl, hevent⟩
        · exact .inr ⟨m, hstill, hclaims⟩
        · rw [Net.after_node_self] at hj
          exact absurd hj (hP.yields (h.ok j) hround hevent hclaims)
    · exact .inl ⟨q, Net.mem_after_sent hij hq, hasks⟩
  · obtain ⟨c, hc, hclaims⟩ := hclaims j hij.symm
    exact .inr ⟨c, Net.mem_after_sent hij.symm hc, hclaims⟩

theorem Exclusive.after : Exclusive ok owns seeks asks claims (net.after k (P.event a) s out) where
  ok := by
    intro i
    by_cases hi : i = k
    · subst hi
      rw [Net.after_node_self]
      exact hP.keeps (h.ok i) hround
    · rw [Net.after_node_of_ne hi]
      exact h.ok i
  single := h.single_after hP hround hready
  pending := h.pending_after hP hround hready

end round

variable [Fintype ι]

theorem Exclusive.fire (hP : Defends P ok owns seeks asks claims) {mv : NetMove ι μ α}
    (hfire : P.fire net mv = some net')
    (h : Exclusive ok owns seeks asks claims net) : Exclusive ok owns seeks asks claims net' := by
  rcases Protocol.fire_cases hfire with ⟨k, a, s, out, hround, hready, rfl⟩ | ⟨k, m, rfl⟩
  · exact h.after hP hround hready
  · exact h.takes k m

theorem Defends.exclusive (hP : Defends P ok owns seeks asks claims) {moves : List (NetMove ι μ α)}
    (hrun : runAll P.fire moves net = some net') (hok : ∀ i, ok i (net.node i)) (hnone : ∀ i f, ¬ owns (net.node i) f) :
    Exclusive ok owns seeks asks claims net' := by
  refine runAll_keeps (fun _ _ _ hfire h => h.fire hP hfire) hrun ⟨hok, ?_, ?_⟩
  · exact fun _ hown => absurd hown (hnone _ _)
  · exact fun _ hown => absurd hown (hnone _ _)

end defence

end Mdns.Lib
