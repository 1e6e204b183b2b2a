import Mathlib.Order.Lattice
import Mathlib.Data.Int.Order.Basic
import Mathlib.Tactic.Common
import Mathlib.Data.List.Forall2
import Mathlib.Data.List.Lex

/-!
# Three-way comparisons

A comparison comes to -1, 0 or 1, or to nothing at all. `ThreeWay` says that the two sides of it agree
and that it is transitive where it comes to something. A comparison by one thing and then by another
inherits both.
-/
namespace Mdns.Lib
open List

variable {α : Type*} {x y z : α} {c : Int} {xs ys : List α}

/-- `R x y c` says that the comparison of `x` with `y` comes to `c`. -/
structure ThreeWay (R : α → α → Int → Prop) : Prop where
  range : ∀ {x y c}, R x y c → c = -1 ∨ c = 0 ∨ c = 1
  unique : ∀ {x y c d}, R x y c → R x y d → c = d
  symm : ∀ {x y c}, R x y c → R y x (-c)
  trans : ∀ {x y z c d}, R x y c → R y z d → 0 ≤ c → 0 ≤ d → R x z (max c d)

def bySize (f : α → Nat) (x y : α) (c : Int) : Prop :=
  (f x < f y ∧ c = -1) ∨ (f x = f y ∧ c = 0) ∨ (f y < f x ∧ c = 1)

/-- Comparison by `R`, and by `S` where `R` makes no difference. -/
def thenBy (R S : α → α → Int → Prop) (x y : α) (c : Int) : Prop := (c ≠ 0 ∧ R x y c) ∨ (R x y 0 ∧ S x y c)

theorem bySize_zero {f : α → Nat} : bySize f x y 0 ↔ f x = f y := by
  simp [bySize]

theorem thenBy_congr {R S S' : α → α → Int → Prop} (h : R x y 0 → (S x y c ↔ S' x y c)) :
    thenBy R S x y c ↔ thenBy R S' x y c := or_congr_right (and_congr_right h)

theorem threeWay_bySize (f : α → Nat) : ThreeWay (bySize f) where
  range := by
    intro x y c h
    unfold bySize at h
    omega
  unique := by
    intro x y c d h h'
    unfold bySize at h h'
    omega
  symm := by
    intro x y c h
    unfold bySize at h ⊢
    omega
  trans := by
    intro x y z c d h h' hc hd
    unfold bySize at h h' ⊢
    omega

theorem ThreeWay.thenBy {R S : α → α → Int → Prop} (hR : ThreeWay R) (hS : ThreeWay S) : ThreeWay (thenBy R S) where
  range := by
    rintro x y c (⟨-, h⟩ | ⟨-, h⟩)
    · exact hR.range h
    · exact hS.range h
  unique := by
    rintro x y c d (⟨hc, h⟩ | ⟨h, hs⟩) (⟨hd, h'⟩ | ⟨h', hs'⟩)
    · exact hR.unique h h'
    · exact absurd (hR.unique h h') hc
    · exact absurd (hR.unique h' h) hd
    · exact hS.unique hs hs'
  symm := by
    rintro x y c (⟨hc, h⟩ | ⟨h, hs⟩)
    · exact .inl ⟨by omega, hR.symm h⟩
    · exact .inr ⟨by simpa using hR.symm h, hS.symm hs⟩
  trans := by
    rintro x y z c d (⟨hc, h⟩ | ⟨h, hs⟩) (⟨hd, h'⟩ | ⟨h', hs'⟩) hc0 hd0
    · exact .inl ⟨by omega, hR.trans h h' hc0 hd0⟩
    · -- the second comparison makes no difference to the first one's verdict
      have hmax : max c d = max c 0 := by
        have h1 := hR.range h
        have h2 := hS.range hs'
        omega
      rw [hmax]
      exact .inl ⟨by omega, hR.trans h h' hc0 (Int.le_refl 0)⟩
    · have hmax : max c d = max 0 d := by
        have h1 := hR.range h'
        have h2 := hS.range hs
        omega
      rw [hmax]
      exact .inl ⟨by omega, hR.trans h h' (Int.le_refl 0) hd0⟩
    · exact .inr ⟨by simpa using hR.trans h h' (Int.le_refl 0) (Int.le_refl 0), hS.trans hs hs' hc0 hd0⟩

theorem ThreeWay.within {κ : Type*} {f : α → κ} {R : κ → α → α → Int → Prop} (h : ∀ k, ThreeWay (R k)) :
    ThreeWay (fun x y c => f x = f y ∧ R (f x) x y c) where
  range := fun hxy => (h _).range hxy.2
  unique := fun hxy hxy' => (h _).unique hxy.2 hxy'.2
  symm := fun hxy => ⟨hxy.1.symm, hxy.1 ▸ (h _).symm hxy.2⟩
  trans := fun hxy hyz hc hd => ⟨hxy.1.trans hyz.1, (h _).trans hxy.2 (hxy.1 ▸ hyz.2) hc hd⟩

theorem ThreeWay.congr_right {R : α → α → Int → Prop} (hR : ThreeWay R) (h : R x y c) (h' : R y z 0) :
    R x z c := by
  rcases Int.le_total 0 c with hc | hc
  · have hmax := hR.trans h h' hc (Int.le_refl 0)
    rwa [Int.max_eq_left hc] at hmax
  · have hback := hR.trans (by simpa using hR.symm h') (hR.symm h) (Int.le_refl 0) (by omega)
    rw [Int.max_eq_right (by omega)] at hback
    simpa using hR.symm hback

theorem ThreeWay.congr_left {R : α → α → Int → Prop} (hR : ThreeWay R) (h : R x y 0) (h' : R y z c) :
    R x z c := by
  have hback := hR.congr_right (hR.symm h') (by simpa using hR.symm h)
  simpa using hR.symm hback

theorem ThreeWay.same {R : α → α → Int → Prop} (hR : ThreeWay R) (h : R x y c) (h' : R y z c) :
    R x z c := by
  rcases Int.le_total 0 c with hc | hc
  · simpa using hR.trans h h' hc hc
  · have hback := hR.trans (hR.symm h') (hR.symm h) (by omega) (by omega)
    simpa using hR.symm hback

/-- A verdict of two comparisons in a row is transitive where it is so for the second among what the
first does not tell apart. -/
theorem ThreeWay.thenBy_same {R S : α → α → Int → Prop} (hR : ThreeWay R)
    (hS : R x y 0 → R y z 0 → S x y c → S y z c → S x z c) (h : Lib.thenBy R S x y c) (h' : Lib.thenBy R S y z c) :
    Lib.thenBy R S x z c := by
  rcases h with ⟨hc, h⟩ | ⟨h, hs⟩ <;> rcases h' with ⟨hc', h'⟩ | ⟨h', hs'⟩
  · exact .inl ⟨hc, hR.same h h'⟩
  · exact .inl ⟨hc, hR.congr_right h h'⟩
  · exact .inl ⟨hc', hR.congr_left h h'⟩
  · exact .inr ⟨hR.same h h', hS h h' hs hs'⟩

/-- Two lists by the first difference, a list before its continuations. -/
def lexBy (R : α → α → Int → Prop) : List α → List α → Int → Prop
  | [], [], c => c = 0
  | [], _ :: _, c => c = -1
  | _ :: _, [], c => c = 1
  | x :: xs, y :: ys, c => (c ≠ 0 ∧ R x y c) ∨ (R x y 0 ∧ lexBy R xs ys c)

theorem lexBy_congr {R S : α → α → Int → Prop}
    (h : ∀ x ∈ xs, ∀ y ∈ ys, ∀ c, R x y c ↔ S x y c) : lexBy R xs ys c ↔ lexBy S xs ys c := by
  induction xs generalizing ys with
  | nil => cases ys <;> rfl
  | cons x xs ih =>
    cases ys with
    | nil => rfl
    | cons y ys =>
      have hrest := @ih ys (fun x' hx y' hy => h x' (.tail _ hx) y' (.tail _ hy))
      simp only [lexBy, h x (.head _) y (.head _), hrest]

theorem lexBy_range {R : α → α → Int → Prop} (hR : ∀ {x y c}, R x y c → c = -1 ∨ c = 0 ∨ c = 1)
    (h : lexBy R xs ys c) : c = -1 ∨ c = 0 ∨ c = 1 := by
  induction xs generalizing ys with
  | nil =>
    cases ys with
    | nil => exact .inr (.inl h)
    | cons y ys => exact .inl h
  | cons x xs ih =>
    cases ys with
    | nil => exact .inr (.inr h)
    | cons y ys =>
      rcases h with ⟨-, h⟩ | ⟨-, h⟩
      · exact hR h
      · exact ih h

theorem lexBy_zero {R : α → α → Int → Prop} :
    (lexBy R xs ys 0 ∧ lexBy R ys xs 0) ↔ List.Forall₂ (fun x y => R x y 0 ∧ R y x 0) xs ys := by
  induction xs generalizing ys with
  | nil => cases ys <;> simp [lexBy]
  | cons x xs ih =>
    cases ys with
    | nil => simp [lexBy]
    | cons y ys =>
      simp only [lexBy, ne_eq, not_true_eq_false, false_and, false_or, forall₂_cons, ← ih]
      exact and_and_and_comm

section linear
variable {α : Type*} [LinearOrder α] {x y : α}

def verdict (x y : α) : Int := if x < y then -1 else if y < x then 1 else 0

theorem verdict_lt (h : x < y) : verdict x y = -1 := if_pos h

theorem verdict_gt (h : y < x) : verdict x y = 1 := (if_neg h.not_gt).trans (if_pos h)

theorem verdict_self (x : α) : verdict x x = 0 := (if_neg (lt_irrefl x)).trans (if_neg (lt_irrefl x))

theorem verdict_eq_zero : verdict x y = 0 ↔ x = y := by
  constructor
  · intro h
    rcases lt_trichotomy x y with hlt | heq | hgt
    · rw [verdict_lt hlt] at h
      cases h
    · exact heq
    · rw [verdict_gt hgt] at h
      cases h
  · rintro rfl
    exact verdict_self x

theorem verdict_swap (x y : α) : verdict y x = -verdict x y := by
  rcases lt_trichotomy x y with hlt | rfl | hgt
  · rw [verdict_lt hlt, verdict_gt hlt]
    rfl
  · rw [verdict_self]
    rfl
  · rw [verdict_lt hgt, verdict_gt hgt]

theorem verdict_le : verdict x y ≤ 0 ↔ x ≤ y := by
  rcases lt_trichotomy x y with hlt | rfl | hgt
  · rw [verdict_lt hlt]
    exact ⟨fun _ => hlt.le, fun _ => by decide⟩
  · rw [verdict_self]
    exact ⟨fun _ => le_refl x, fun _ => le_refl 0⟩
  · rw [verdict_gt hgt]
    exact ⟨fun h => absurd h (by decide), fun h => absurd hgt h.not_gt⟩

theorem verdict_eq_one {x y : α} : verdict x y = 1 ↔ y < x := by
  constructor
  · intro h
    by_contra hle
    have hle := verdict_le.mpr (not_lt.mp hle)
    omega
  · exact verdict_gt

theorem verdict_eq_neg_one : verdict x y = -1 ↔ x < y := by
  have hswap := verdict_swap x y
  rw [← @verdict_eq_one α _ y x]
  omega

theorem verdict_range (x y : α) : verdict x y = -1 ∨ verdict x y = 0 ∨ verdict x y = 1 := by
  rcases lt_trichotomy x y with hlt | rfl | hgt
  · exact .inl (verdict_lt hlt)
  · exact .inr (.inl (verdict_self x))
  · exact .inr (.inr (verdict_gt hgt))

theorem verdict_trans {z : α} (h : 0 ≤ verdict x y) (h' : 0 ≤ verdict y z) :
    verdict x z = max (verdict x y) (verdict y z) := by
  rw [verdict_swap, Int.neg_nonneg, verdict_le] at h h'
  rcases h.eq_or_lt with rfl | hlt
  · rw [verdict_self]
    rw [← verdict_le] at h'
    have hswap := verdict_swap z y
    omega
  · have hrange := verdict_range y z
    rw [verdict_gt hlt, verdict_gt (h'.trans_lt hlt)]
    omega

theorem verdict_cons (x y : α) (xs ys : List α) :
    verdict (x :: xs) (y :: ys) = if verdict x y ≠ 0 then verdict x y else verdict xs ys := by
  rcases lt_trichotomy x y with hlt | rfl | hgt
  · rw [verdict_lt (cons_lt_cons_iff.mpr (.inl hlt)), verdict_lt hlt]
    rfl
  · rw [if_neg (fun h => h (verdict_self x))]
    rcases lt_trichotomy xs ys with hlt | rfl | hgt
    · rw [verdict_lt (cons_lt_cons_iff.mpr (.inr ⟨rfl, hlt⟩)), verdict_lt hlt]
    · rw [verdict_self, verdict_self]
    · rw [verdict_gt (cons_lt_cons_iff.mpr (.inr ⟨rfl, hgt⟩)), verdict_gt hgt]
  · rw [verdict_gt (cons_lt_cons_iff.mpr (.inl hgt)), verdict_gt hgt]
    rfl

theorem verdict_nil_cons (y : α) (ys : List α) : verdict [] (y :: ys) = -1 := verdict_lt (nil_lt_cons y ys)

theorem verdict_cons_nil (x : α) (xs : List α) : verdict (x :: xs) [] = 1 := verdict_gt (nil_lt_cons x xs)

theorem verdict_append {xs ys : List α} (h : xs.length = ys.length) (us vs : List α) :
    verdict (xs ++ us) (ys ++ vs) = if verdict xs ys ≠ 0 then verdict xs ys else verdict us vs := by
  induction xs generalizing ys with
  | nil =>
    obtain rfl := eq_nil_of_length_eq_zero h.symm
    rw [if_neg (fun h => h (verdict_self _))]
    rfl
  | cons x xs ih =>
    cases ys with
    | nil => cases h
    | cons y ys =>
      rw [cons_append, cons_append, verdict_cons, verdict_cons, ih (Nat.succ.inj h)]
      split_ifs <;> simp_all

end linear

end Mdns.Lib
