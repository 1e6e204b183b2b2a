import Mathlib.Data.List.Nodup

/-!
# Entries that follow one another

A list of entries tiles a range if each one starts where the one before it ends. When an entry is
determined by where it starts, so is the list.
-/
namespace Mdns.Lib
open List

variable {α : Type} {R S : Nat → α → Nat → Prop} {a b c : Nat} {x : α} {xs ys : List α}

/-- Entries that follow one another from one offset to another. -/
inductive Tiles (R : Nat → α → Nat → Prop) : Nat → List α → Nat → Prop where
  | nil {a : Nat} : Tiles R a [] a
  | cons {a b c : Nat} {x : α} {xs : List α} : R a x b → Tiles R b xs c → Tiles R a (x :: xs) c

theorem Tiles.imp (h : Tiles R a xs b) (hRS : ∀ a x b, R a x b → S a x b) : Tiles S a xs b := by
  induction h with
  | nil => exact .nil
  | cons hx _ ih => exact .cons (hRS _ _ _ hx) ih

theorem Tiles.append (h : Tiles R a xs b) (h' : Tiles R b ys c) : Tiles R a (xs ++ ys) c := by
  induction h with
  | nil => exact h'
  | cons hx _ ih => exact .cons hx (ih h')

theorem Tiles.forall {P : α → Prop} (h : Tiles R a xs b) (hP : ∀ a x b, R a x b → P x) : ∀ x ∈ xs, P x := by
  induction h with
  | nil =>
    intro x hx
    cases hx
  | cons hx _ ih => exact forall_mem_cons.mpr ⟨hP _ _ _ hx, ih⟩

theorem Tiles.le (h : Tiles R a xs b) (hlt : ∀ a x b, R a x b → a < b) : a ≤ b := by
  induction h with
  | nil => exact Nat.le_refl _
  | cons hx _ ih => exact Nat.le_trans (Nat.le_of_lt (hlt _ _ _ hx)) ih

theorem Tiles.nodup {start : α → Nat} (h : Tiles R a xs b)
    (hR : ∀ a x b, R a x b → start x = a ∧ a < b) : xs.Nodup := by
  have hbehind : ∀ {a xs b}, Tiles R a xs b → ∀ x ∈ xs, a ≤ start x := by
    intro a xs b h
    induction h with
    | nil =>
      intro x hx
      cases hx
    | cons hx _ ih =>
      obtain ⟨hstart, hlt⟩ := hR _ _ _ hx
      refine forall_mem_cons.mpr ⟨Nat.le_of_eq hstart.symm, ?_⟩
      intro y hy
      exact Nat.le_trans (Nat.le_of_lt hlt) (ih y hy)
  induction h with
  | nil => exact nodup_nil
  | cons hx hrest ih =>
    obtain ⟨hstart, hlt⟩ := hR _ _ _ hx
    refine nodup_cons.mpr ⟨?_, ih⟩
    intro hmem
    have hle := hbehind hrest _ hmem
    omega

theorem Tiles.end_eq_iff (h : Tiles R a xs b) (hlt : ∀ a x b, R a x b → a < b) : a = b ↔ xs = [] := by
  cases h with
  | nil => exact ⟨fun _ => rfl, fun _ => rfl⟩
  | cons hx hrest =>
    have hfirst := hlt _ _ _ hx
    have hle := hrest.le hlt
    constructor
    · intro heq
      omega
    · intro hnil
      cases hnil

theorem Tiles.take (hR : ∀ a x y b c, R a x b → R a y c → x = y ∧ b = c) (h : Tiles R a xs b) (h' : Tiles R a ys c)
    (hle : xs.length ≤ ys.length) : xs = ys.take xs.length ∧ Tiles R b (ys.drop xs.length) c := by
  induction h generalizing ys with
  | nil => exact ⟨rfl, h'⟩
  | cons hx _ ih =>
    cases h' with
    | nil => cases hle
    | cons hy hrest =>
      obtain ⟨rfl, rfl⟩ := hR _ _ _ _ _ hx hy
      obtain ⟨htake, hdrop⟩ := ih hrest (Nat.le_of_succ_le_succ hle)
      exact ⟨congrArg _ htake, hdrop⟩

theorem Tiles.unique (hR : ∀ a x y b c, R a x b → R a y c → x = y ∧ b = c) (h : Tiles R a xs b) (h' : Tiles R a ys c)
    (hlen : xs.length = ys.length) : xs = ys ∧ b = c := by
  obtain ⟨htake, hdrop⟩ := Tiles.take hR h h' (Nat.le_of_eq hlen)
  rw [hlen, take_length] at htake
  rw [hlen, drop_length] at hdrop
  cases hdrop
  exact ⟨htake, rfl⟩

section stored
variable {start : α → Nat} {k : Nat}

/-- At most `k` entries were taken from where the list starts. They end where it ends if it has no more. -/
theorem Tiles.take_min (hR : ∀ a x y b c, R a x b → R a y c → x = y ∧ b = c)
    (hstart : ∀ a x b, R a x b → start x = a ∧ a < b)
    (h : Tiles R a xs b) (h' : Tiles R a ys c) (hlen : xs.length = min ys.length k) :
    xs = ys.take k ∧ (b = c ↔ ys.length ≤ k) := by
  obtain ⟨htake, hdrop⟩ := Tiles.take hR h h' (hlen ▸ Nat.min_le_left _ _)
  have hmin : ys.take (min ys.length k) = ys.take k := take_eq_take_iff.mpr (by omega)
  refine ⟨?_, ?_⟩
  · rw [hlen, hmin] at htake
    exact htake
  · rw [hdrop.end_eq_iff (fun _ _ _ h => (hstart _ _ _ h).2), drop_eq_nil_iff]
    omega

/-- Entries taken from `a` are the first ones of a list that starts at `a'` only if both are one offset. -/
theorem Tiles.take_iff (hR : ∀ a x y b c, R a x b → R a y c → x = y ∧ b = c)
    (hstart : ∀ a x b, R a x b → start x = a ∧ a < b)
    {a' : Nat} (h : Tiles R a xs b) (h' : Tiles R a' ys c) (hlen : xs.length = min ys.length k) (hk : 0 < k) :
    xs = ys.take k ↔ ys = [] ∨ a = a' := by
  constructor
  · intro heq
    cases h' with
    | nil => exact .inl rfl
    | cons hy _ =>
      obtain ⟨j, rfl⟩ := Nat.exists_eq_add_of_lt hk
      rw [Nat.zero_add, take_succ_cons] at heq
      subst heq
      cases h with
      | cons hx _ => exact .inr ((hstart _ _ _ hx).1.symm.trans (hstart _ _ _ hy).1)
  · rintro (rfl | rfl)
    · rw [length_nil, Nat.zero_min] at hlen
      rw [eq_nil_of_length_eq_zero hlen, take_nil]
    · exact (h.take_min hR hstart h' hlen).1

end stored

end Mdns.Lib
