import Mathlib.Algebra.BigOperators.Group.List.Basic
import Mathlib.Algebra.Order.Ring.Nat

/-!
# Packing items in their order

Items are put into a box in their order, each of them if there is room for it. The packing ends
without a result at one that has to go in and does not.
-/
namespace Mdns.Lib
open List

/-- A box for items: the size of an item, which items have to go in, and the room. -/
structure Box (α : Type*) where
  size : α → Nat
  must : α → Bool
  room : Nat

namespace Box

variable {α : Type*} (b : Box α) {ws ws' xs ys : List α} {x : α}

def load (xs : List α) : Nat := (xs.map b.size).sum

/-- The items in the box after `xs` have come, with `ws` in it before. -/
def pack : List α → List α → Option (List α)
  | ws, [] => some ws
  | ws, x :: xs =>
    if b.load ws + b.size x ≤ b.room then pack (ws ++ [x]) xs else if b.must x then none else pack ws xs

/-- The same, up to the first item for which there is no room. -/
def fill : List α → List α → List α
  | ws, [] => ws
  | ws, x :: xs => if b.load ws + b.size x ≤ b.room then fill (ws ++ [x]) xs else ws

variable {b}

theorem load_append (xs ys : List α) : b.load (xs ++ ys) = b.load xs + b.load ys := by
  simp [load]

theorem load_cons (x : α) (xs : List α) : b.load (x :: xs) = b.size x + b.load xs := by
  simp [load]

theorem load_snoc (xs : List α) (x : α) : b.load (xs ++ [x]) = b.load xs + b.size x := by
  simp [load]

theorem pack_cons (ws : List α) (x : α) (xs : List α) : b.pack ws (x :: xs) =
    if b.load ws + b.size x ≤ b.room then b.pack (ws ++ [x]) xs else if b.must x then none else b.pack ws xs := rfl

theorem pack_append (ws xs ys : List α) : b.pack ws (xs ++ ys) = (b.pack ws xs).bind (fun ws' => b.pack ws' ys) := by
  induction xs generalizing ws with
  | nil => rfl
  | cons x xs ih =>
    rw [cons_append, pack_cons, pack_cons]
    split
    · exact ih _
    · split
      · rfl
      · exact ih _

theorem pack_mem (h : b.pack ws xs = some ws') : ws <+: ws' ∧ ∀ x ∈ xs, b.must x = true → x ∈ ws' := by
  induction xs generalizing ws with
  | nil =>
    cases h
    exact ⟨prefix_rfl, nofun⟩
  | cons x xs ih =>
    rw [pack_cons] at h
    split at h
    · obtain ⟨hpre, hmust⟩ := ih h
      refine ⟨(prefix_append ws [x]).trans hpre, ?_⟩
      intro y hy hm
      rcases mem_cons.mp hy with rfl | hy
      · exact hpre.subset (mem_append_right _ (mem_singleton.mpr rfl))
      · exact hmust y hy hm
    · split at h
      · cases h
      · next hfree =>
        obtain ⟨hpre, hmust⟩ := ih h
        refine ⟨hpre, fun y hy hm => ?_⟩
        rcases mem_cons.mp hy with rfl | hy
        · exact absurd hm hfree
        · exact hmust y hy hm

theorem pack_of_load_le (h : b.load ws + b.load xs ≤ b.room) : b.pack ws xs = some (ws ++ xs) := by
  induction xs generalizing ws with
  | nil => simp [pack]
  | cons x xs ih =>
    rw [load_cons] at h
    rw [pack_cons, if_pos (by omega), ih, append_assoc, singleton_append]
    rw [load_snoc]
    omega

theorem fill_cons (ws : List α) (x : α) (xs : List α) :
    b.fill ws (x :: xs) = if b.load ws + b.size x ≤ b.room then b.fill (ws ++ [x]) xs else ws := rfl

theorem fill_eq_append (ws xs : List α) : ∃ ys, ys <+: xs ∧ b.fill ws xs = ws ++ ys := by
  induction xs generalizing ws with
  | nil => exact ⟨[], prefix_rfl, (append_nil ws).symm⟩
  | cons x xs ih =>
    rw [fill_cons]
    split
    · obtain ⟨ys, hys, heq⟩ := ih (ws ++ [x])
      exact ⟨x :: ys, cons_prefix_cons.mpr ⟨rfl, hys⟩, by rw [heq, append_assoc, singleton_append]⟩
    · exact ⟨[], nil_prefix, (append_nil ws).symm⟩

theorem load_fill_le (xs : List α) (h : b.load ws ≤ b.room) : b.load (b.fill ws xs) ≤ b.room := by
  induction xs generalizing ws with
  | nil => exact h
  | cons x xs ih =>
    rw [fill_cons]
    split
    · next hfits => exact ih (by rw [load_snoc]; exact hfits)
    · exact h

theorem fill_congr {b' : Box α} (hroom : b'.room = b.room) (hws : ∀ x ∈ ws, b'.size x = b.size x)
    (hxs : ∀ x ∈ xs, b'.size x = b.size x) : b'.fill ws xs = b.fill ws xs := by
  induction xs generalizing ws with
  | nil => rfl
  | cons x xs ih =>
    obtain ⟨hx, hxs⟩ := forall_mem_cons.mp hxs
    have hload : b'.load ws = b.load ws := congrArg List.sum (map_congr_left hws)
    have hmore : ∀ y ∈ ws ++ [x], b'.size y = b.size y := forall_mem_append.mpr ⟨hws, by simpa using hx⟩
    rw [fill_cons, fill_cons, hload, hx, hroom, ih hmore hxs]

end Box

end Mdns.Lib
