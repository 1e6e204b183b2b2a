import Mathlib.Algebra.Ring.Nat
import Mathlib.Data.List.Forall2
import Mathlib.Data.List.Nodup
import Mathlib.Logic.Function.Basic

/-!
# Lists kept beside a pointer

`Inverts` says that the lists of the indices are the inverse of the pointers; it is kept when an
element retires, joins or moves. `Splits` says that two lists are the two parts of a pool.
-/
namespace Mdns.Lib
open List Option
open Function (update update_apply update_of_ne update_self)

variable {S I : Type*} [DecidableEq S] [DecidableEq I]

/-- Take the element off the list that it points to. -/
def unlink (f : S → Option I) (lists : I → List S) (s : S) : I → List S :=
  (f s).elim lists (fun i => update lists i ((lists i).erase s))

def link (lists : I → List S) (i : I) (s : S) : I → List S := update lists i (s :: lists i)

theorem unlink_apply (f : S → Option I) (lists : I → List S) (s : S) (i : I) :
    unlink f lists s i = if f s = some i then (lists i).erase s else lists i := by
  unfold unlink
  cases hs : f s with
  | none => simp
  | some j =>
    rw [elim_some, update_apply]
    by_cases hi : i = j
    · simp [hi]
    · simp [hi, eq_comm]

/-- The lists hold exactly the live elements that point to them, each once. -/
structure Inverts (f : S → Option I) (live : S → Prop) (lists : I → List S) : Prop where
  nodup : ∀ i, (lists i).Nodup
  mem_iff : ∀ i s, s ∈ lists i ↔ live s ∧ f s = some i

section
variable {f : S → Option I} {live live' : S → Prop} {lists : I → List S} {s : S} {i : I}

omit [DecidableEq S] [DecidableEq I] in
theorem Inverts.congr (h : Inverts f live lists) (hl : ∀ t, live t ↔ live' t) : Inverts f live' lists :=
  ⟨h.nodup, fun i t => by rw [h.mem_iff, hl]⟩

omit [DecidableEq S] [DecidableEq I] in
theorem Inverts.congr_on {g : S → Option I} (h : Inverts f live lists) (hg : ∀ t, live t → g t = f t) :
    Inverts g live lists :=
  ⟨h.nodup, fun i t => (h.mem_iff i t).trans (and_congr_right (fun ht => by rw [hg t ht]))⟩

omit [DecidableEq S] [DecidableEq I] in
theorem inverts_empty (f : S → Option I) (hl : ∀ t, ¬ live t) : Inverts f live (fun _ => []) :=
  ⟨fun _ => nodup_nil, fun i t => by simp [hl t]⟩

theorem Inverts.retire (h : Inverts f live lists) (s : S) :
    Inverts f (fun t => t ≠ s ∧ live t) (unlink f lists s) := by
  unfold unlink
  cases hs : f s with
  | none =>
    refine ⟨h.nodup, fun i t => ?_⟩
    rw [elim_none, h.mem_iff]
    refine ⟨fun ⟨hl, hi⟩ => ⟨⟨?_, hl⟩, hi⟩, fun ⟨⟨_, hl⟩, hi⟩ => ⟨hl, hi⟩⟩
    rintro rfl
    rw [hs] at hi
    cases hi
  | some i =>
    refine ⟨fun j => ?_, fun j t => ?_⟩
    · rw [elim_some, update_apply]
      split
      · exact (h.nodup i).erase s
      · exact h.nodup j
    · rw [elim_some, update_apply]
      split
      · next hj =>
        rw [(h.nodup i).mem_erase_iff, h.mem_iff, hj, and_assoc]
      · next hj =>
        rw [h.mem_iff]
        refine ⟨fun ⟨hl, ht⟩ => ⟨⟨?_, hl⟩, ht⟩, fun ⟨⟨_, hl⟩, ht⟩ => ⟨hl, ht⟩⟩
        rintro rfl
        exact hj (Option.some.inj (ht.symm.trans hs))

theorem Inverts.join (h : Inverts f live lists) (hs : ¬ live s) (i : I) :
    Inverts (update f s (some i)) (fun t => t = s ∨ live t) (link lists i s) := by
  have hnot : ∀ j, s ∉ lists j := fun j hj => hs ((h.mem_iff j s).mp hj).1
  refine ⟨fun j => ?_, fun j t => ?_⟩
  · rw [link, update_apply]
    split
    · exact nodup_cons.mpr ⟨hnot i, h.nodup i⟩
    · exact h.nodup j
  · by_cases ht : t = s
    · subst ht
      rw [link, update_apply, update_self]
      split
      · next hj => simp [hj]
      · next hj => simpa [hnot j] using fun he => hj he.symm
    · rw [link, update_apply, update_of_ne ht]
      split
      · next hj => simp [ht, h.mem_iff, hj]
      · simp [ht, h.mem_iff]

omit [DecidableEq I] in
theorem Inverts.join_none (h : Inverts f live lists) (hs : ¬ live s) :
    Inverts (update f s none) (fun t => t = s ∨ live t) lists := by
  refine ⟨h.nodup, fun j t => ?_⟩
  rw [h.mem_iff]
  by_cases ht : t = s
  · subst ht
    simp [hs]
  · simp [ht]

theorem Inverts.move (h : Inverts f live lists) (hs : live s) (i : I) :
    Inverts (update f s (some i)) live (link (unlink f lists s) i s) := by
  refine ((h.retire s).join (s := s) (fun hh => hh.1 rfl) i).congr (fun t => ?_)
  by_cases ht : t = s
  · subst ht
    simp [hs]
  · simp [ht]

end

/-- Two lists without repetition that share nothing and miss nothing. -/
structure Splits (on off : List I) : Prop where
  onNodup : on.Nodup
  offNodup : off.Nodup
  off_iff : ∀ a, a ∈ off ↔ a ∉ on

section
variable {on off : List I} {a : I}

theorem Splits.turnOff (h : Splits on off) (ha : a ∈ on) : Splits (on.erase a) (a :: off) := by
  have hoff : a ∉ off := fun hoff => (h.off_iff a).mp hoff ha
  refine ⟨h.onNodup.erase a, nodup_cons.mpr ⟨hoff, h.offNodup⟩, fun b => ?_⟩
  rw [mem_cons, h.onNodup.mem_erase_iff, h.off_iff]
  by_cases hb : b = a <;> simp [hb]

omit [DecidableEq I] in
theorem Splits.turnOn (h : Splits on (a :: off)) : Splits (a :: on) off := by
  obtain ⟨hoff, hnodup⟩ := nodup_cons.mp h.offNodup
  have hon : a ∉ on := (h.off_iff a).mp (mem_cons_self ..)
  refine ⟨nodup_cons.mpr ⟨hon, h.onNodup⟩, hnodup, fun b => ?_⟩
  by_cases hb : b = a
  · subst hb
    simp [hoff]
  · have := h.off_iff b
    simp only [mem_cons, hb, false_or] at this ⊢
    exact this

end

section
variable {α β : Type} {i : Nat} {b : β} {l : List α}

theorem forall₂_set {R : α → β → Prop} {l' : List β} (h : List.Forall₂ R l l')
    (hb : ∀ a, l[i]? = some a → R a b) : List.Forall₂ R l (l'.set i b) := by
  induction h generalizing i with
  | nil => exact .nil
  | cons hhead hrest ih =>
    cases i with
    | zero => exact .cons (hb _ rfl) hrest
    | succ i => exact .cons hhead (ih hb)

theorem forall₂_getElem? {R : α → β → Prop} {l' : List β}
    (h : List.Forall₂ R l l') (hb : l'[i]? = some b) : ∃ a, l[i]? = some a ∧ R a b := by
  induction h generalizing i with
  | nil => cases hb
  | cons hhead hrest ih =>
    cases i with
    | zero =>
      cases hb
      exact ⟨_, rfl, hhead⟩
    | succ i => exact ih hb

theorem sum_set {f : α → Nat} {a b : α} (h : l[i]? = some a) :
    ((l.set i b).map f).sum + f a = (l.map f).sum + f b := by
  induction l generalizing i with
  | nil => cases h
  | cons x l ih =>
    cases i with
    | zero =>
      cases h
      simp only [set_cons_zero, map_cons, sum_cons]
      omega
    | succ i =>
      have hrest := ih (i := i) h
      simp only [set_cons_succ, map_cons, sum_cons]
      omega

end

theorem exists_forall₂_iff {α β : Type*} {R : α → β → Prop} {xs : List α} :
    (∃ ys, List.Forall₂ R xs ys) ↔ ∀ x ∈ xs, ∃ y, R x y := by
  induction xs with
  | nil => exact ⟨fun _ => nofun, fun _ => ⟨[], .nil⟩⟩
  | cons x xs ih =>
    rw [forall_mem_cons, ← ih]
    constructor
    · rintro ⟨_, hys⟩
      obtain ⟨y, ys, hy, hys, -⟩ := forall₂_cons_left_iff.mp hys
      exact ⟨⟨y, hy⟩, ys, hys⟩
    · rintro ⟨⟨y, hy⟩, ys, hys⟩
      exact ⟨y :: ys, .cons hy hys⟩

end Mdns.Lib
