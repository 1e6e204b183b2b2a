import Mdns.Dname.Walk
import Mdns.Lib.Compare
import Mdns.Lib.Fuel

/-!
# What a name says

A name that is well formed expands to a list of labels. What the walkers return on such names is
said here in terms of the labels.
-/
namespace Mdns
open Lib List

abbrev Labels := List (List UInt8)

/-- The labels that a name is made of. Pointers may lead anywhere, but only a name that comes
to a zero byte expands. -/
inductive Expands (p : Src) : Nat → Labels → Prop where
  | root {n : Nat} : byte p.mem n = 0 → Expands p n []
  | label {n : Nat} {ls : Labels} : byte p.mem n ≠ 0 → isPointer (byte p.mem n) = false →
      Expands p (n + byte p.mem n + 1) ls → Expands p n (slice p.mem (n + 1) (byte p.mem n) :: ls)
  | jump {n : Nat} {ls : Labels} : p.rel = true → isPointer (byte p.mem n) = true →
      Expands p (pointer p.mem n) ls → Expands p n ls

theorem isPointer_zero : isPointer 0 = false := rfl

theorem ne_zero_of_isPointer {c : Nat} (h : isPointer c = true) : c ≠ 0 := by
  rintro rfl
  cases h

theorem Expands.unique {p : Src} {n : Nat} {ls ls' : Labels} (h : Expands p n ls) (h' : Expands p n ls') :
    ls = ls' := by
  induction h generalizing ls' with
  | root hz =>
    cases h' with
    | root => rfl
    | label hz' => exact absurd hz hz'
    | jump _ hp => exact absurd hz (ne_zero_of_isPointer hp)
  | label hz hp _ ih =>
    cases h' with
    | root hz' => exact absurd hz' hz
    | label _ _ h' => rw [ih h']
    | jump _ hp' => rw [hp] at hp'; cases hp'
  | jump _ hp _ ih =>
    cases h' with
    | root hz' => exact absurd hz' (ne_zero_of_isPointer hp)
    | label _ hp' => rw [hp] at hp'; cases hp'
    | jump _ _ h' => exact ih h'

def decodeName (p : Src) : Nat → Nat → Option Labels
  | 0, _ => none
  | fuel+1, n =>
    if byte p.mem n = 0 then some []
    else if isPointer (byte p.mem n) = true then
      if p.rel = true then decodeName p fuel (pointer p.mem n) else none
    else (decodeName p fuel (n + byte p.mem n + 1)).map (slice p.mem (n + 1) (byte p.mem n) :: ·)

theorem expands_of_decodeName {p : Src} {fuel n : Nat} {ls : Labels} (h : decodeName p fuel n = some ls) :
    Expands p n ls := by
  induction fuel generalizing n ls with
  | zero => cases h
  | succ fuel ih =>
    rw [decodeName] at h
    split_ifs at h with hz hp hr
    · cases h
      exact .root hz
    · exact .jump hr hp (ih h)
    · obtain ⟨rest, hrest, rfl⟩ := Option.map_eq_some_iff.mp h
      exact .label hz (Bool.eq_false_iff.mpr hp) (ih hrest)

section compare

theorem cmpBytes_eq (as bs : List UInt8) : cmpBytes as bs = verdict (as.map UInt8.toNat) (bs.map UInt8.toNat) := by
  induction as generalizing bs with
  | nil =>
    cases bs with
    | nil => exact (verdict_self _).symm
    | cons b bs => exact (verdict_nil_cons _ _).symm
  | cons a as ih =>
    cases bs with
    | nil => exact (verdict_cons_nil _ _).symm
    | cons b bs =>
      simp only [cmpBytes, gt_iff_lt, UInt8.lt_iff_toNat_lt]
      rw [map_cons, map_cons, verdict_cons, ih]
      rcases lt_trichotomy a.toNat b.toNat with hlt | heq | hgt
      · rw [verdict_lt hlt, if_neg hlt.not_gt, if_pos hlt]
        rfl
      · rw [heq, verdict_self, if_neg (lt_irrefl _), if_neg (lt_irrefl _)]
        rfl
      · rw [verdict_gt hgt, if_pos hgt]
        rfl

theorem bytes_injective : Function.Injective (fun l : List UInt8 => l.map UInt8.toNat) :=
  map_injective_iff.mpr (fun _ _ => UInt8.toNat_inj.mp)

theorem cmpBytes_eq_zero {as bs : List UInt8} : cmpBytes as bs = 0 ↔ as = bs := by
  rw [cmpBytes_eq, verdict_eq_zero]
  exact bytes_injective.eq_iff

theorem cmpBytes_self (as : List UInt8) : cmpBytes as as = 0 := cmpBytes_eq_zero.mpr rfl

/-- The order of names that `dname_cmp` goes by. -/
def cmpLabels : Labels → Labels → Int
  | [], [] => 0
  | _ :: _, [] => 1
  | [], _ :: _ => -1
  | a :: as, b :: bs => if cmpBytes a b ≠ 0 then cmpBytes a b else cmpLabels as bs

def values (ls : Labels) : List (List Nat) := ls.map (·.map UInt8.toNat)

theorem cmpLabels_eq (as bs : Labels) : cmpLabels as bs = verdict (values as) (values bs) := by
  unfold values
  induction as generalizing bs with
  | nil =>
    cases bs with
    | nil => exact (verdict_self _).symm
    | cons b bs => exact (verdict_nil_cons _ _).symm
  | cons a as ih =>
    cases bs with
    | nil => exact (verdict_cons_nil _ _).symm
    | cons b bs => rw [map_cons, map_cons, verdict_cons, cmpLabels, cmpBytes_eq, ih]

theorem values_inj {as bs : Labels} : values as = values bs ↔ as = bs := (map_injective_iff.mpr bytes_injective).eq_iff

theorem cmpLabels_eq_zero {as bs : Labels} : cmpLabels as bs = 0 ↔ as = bs := by
  rw [cmpLabels_eq, verdict_eq_zero, values_inj]

variable {p1 p2 : Src} {n1 n2 : Nat} {l1 l2 : Labels}

theorem cmp_root (hz : byte p1.mem n1 = 0) (h2 : Expands p2 n2 l2) :
    ∃ fuel, loop (cmpBody p1 p2) fuel (n1, n2) = some (some (cmpLabels [] l2)) := by
  have hp1 : isPointer (byte p1.mem n1) = false := by rw [hz]; rfl
  induction h2 with
  | root hz2 => exact ⟨1, loop_break (by simp [cmpBody, hz, hz2, isPointer_zero, cmpLabels]) 0⟩
  | label hz2 hp2 _ _ => exact ⟨1, loop_break (by simp [cmpBody, hz, hz2, hp2, isPointer_zero, cmpLabels]) 0⟩
  | jump hr hp2 _ ih =>
    obtain ⟨fuel, hf⟩ := ih
    exact ⟨fuel + 1, (loop_continue (by simp [cmpBody, hp1, hp2, hr]) fuel).trans hf⟩

theorem cmp_label (hz : byte p1.mem n1 ≠ 0) (hp1 : isPointer (byte p1.mem n1) = false)
    (ih : ∀ {n2 l2}, Expands p2 n2 l2 →
      ∃ fuel, loop (cmpBody p1 p2) fuel (n1 + byte p1.mem n1 + 1, n2) = some (some (cmpLabels l1 l2)))
    (h2 : Expands p2 n2 l2) :
    ∃ fuel, loop (cmpBody p1 p2) fuel (n1, n2) =
      some (some (cmpLabels (slice p1.mem (n1 + 1) (byte p1.mem n1) :: l1) l2)) := by
  induction h2 with
  | root hz2 => exact ⟨1, loop_break (by simp [cmpBody, hz, hp1, hz2, isPointer_zero, cmpLabels]) 0⟩
  | @label n2 l2 hz2 hp2 h2 _ =>
    rw [cmpLabels, ← labelCmpAt]
    by_cases hc : labelCmpAt p1.mem n1 p2.mem n2 = 0
    · obtain ⟨fuel, hf⟩ := ih h2
      have hgo : cmpBody p1 p2 (n1, n2) = .inl (n1 + byte p1.mem n1 + 1, n2 + byte p2.mem n2 + 1) := by
        simp [cmpBody, hz, hp1, hz2, hp2, hc]
      exact ⟨fuel + 1, (loop_continue hgo fuel).trans (by rw [hf, if_neg (fun h => h hc)])⟩
    · exact ⟨1, loop_break (by simp [cmpBody, hz, hp1, hz2, hp2, hc]) 0⟩
  | jump hr hp2 _ ih2 =>
    obtain ⟨fuel, hf⟩ := ih2
    exact ⟨fuel + 1, (loop_continue (by simp [cmpBody, hp1, hp2, hr]) fuel).trans hf⟩

theorem cmp_exists (h1 : Expands p1 n1 l1) (h2 : Expands p2 n2 l2) :
    ∃ fuel, loop (cmpBody p1 p2) fuel (n1, n2) = some (some (cmpLabels l1 l2)) := by
  induction h1 generalizing n2 l2 with
  | root hz => exact cmp_root hz h2
  | label hz hp _ ih => exact cmp_label hz hp (fun h => ih h) h2
  | jump hr hp _ ih =>
    obtain ⟨fuel, hf⟩ := ih h2
    exact ⟨fuel + 1, (loop_continue (by simp [cmpBody, hp, hr]) fuel).trans hf⟩

theorem stable_dnameCmp (p1 : Src) (n1 : Nat) (p2 : Src) (n2 : Nat) :
    Stable none (fun fuel => dnameCmp fuel p1 n1 p2 n2) := stable_join (stable_loop _ _)

theorem dnameCmp_comes (h1 : Expands p1 n1 l1) (h2 : Expands p2 n2 l2) :
    Comes (fun fuel => dnameCmp fuel p1 n1 p2 n2) (some (cmpLabels l1 l2)) := by
  obtain ⟨fuel, hf⟩ := cmp_exists h1 h2
  have hd : dnameCmp fuel p1 n1 p2 n2 = some (cmpLabels l1 l2) := by rw [dnameCmp, hf]; rfl
  exact hd ▸ (stable_dnameCmp p1 n1 p2 n2).comes (by rw [hd]; simp)

theorem dnameCmp_eq {fuel : Nat} {c : Int} (h : dnameCmp fuel p1 n1 p2 n2 = some c) (h1 : Expands p1 n1 l1)
    (h2 : Expands p2 n2 l2) : c = cmpLabels l1 l2 := by
  have hc := (stable_dnameCmp p1 n1 p2 n2).comes (n := fuel) (by rw [h]; simp)
  rw [h] at hc
  exact Option.some.inj (hc.unique (dnameCmp_comes h1 h2))

end compare

section walk
variable {p : Src} {n : Nat} {ls : Labels}

/-- The first place from `n` on that is not a pointer. -/
def Lands (p : Src) (n n' : Nat) : Prop := Comes (fun fuel => chase fuel p n) (some n')

theorem stable_chase (p : Src) (n : Nat) : Stable none (fun fuel => chase fuel p n) := stable_join (stable_loop _ _)

theorem lands_self (h : isPointer (byte p.mem n) = false) : Lands p n n := by
  have hc : chase 1 p n = some n := by simp [chase, loop, chaseBody, h]
  have hcomes := (stable_chase p n).comes (n := 1) (by rw [hc]; simp)
  rwa [hc] at hcomes

theorem lands_jump {n' : Nat} (hr : p.rel = true) (hp : isPointer (byte p.mem n) = true)
    (h : Lands p (pointer p.mem n) n') : Lands p n n' := by
  obtain ⟨f, hf⟩ := h
  refine ⟨f + 1, fun m hm => ?_⟩
  obtain ⟨m, rfl⟩ := Nat.exists_eq_add_of_le' (Nat.le_trans (Nat.succ_pos f) hm)
  have hgo : chaseBody p n = .inl (pointer p.mem n) := by simp [chaseBody, hp, hr]
  show (loop (chaseBody p) (m + 1) n).join = some n'
  rw [loop_continue hgo]
  exact hf m (Nat.le_of_succ_le_succ hm)

theorem Expands.lands (h : Expands p n ls) :
    ∃ n', Lands p n n' ∧ isPointer (byte p.mem n') = false ∧ Expands p n' ls := by
  induction h with
  | root hz => exact ⟨_, lands_self (by rw [hz]; rfl), by rw [hz]; rfl, .root hz⟩
  | label hz hp h _ => exact ⟨_, lands_self hp, hp, .label hz hp h⟩
  | jump hr hp _ ih =>
    obtain ⟨n', hn', hp', h'⟩ := ih
    exact ⟨n', lands_jump hr hp hn', hp', h'⟩

theorem Expands.first {l : List UInt8} (h : Expands p n (l :: ls)) :
    ∃ n', Lands p n n' ∧ l = slice p.mem (n' + 1) (byte p.mem n') ∧ l.length = byte p.mem n' ∧
      Expands p (n' + byte p.mem n' + 1) ls := by
  obtain ⟨n', hn', hp, h'⟩ := h.lands
  cases h' with
  | label hz _ h => exact ⟨n', hn', rfl, by rw [slice_length], h⟩
  | jump _ hp' => rw [hp] at hp'; cases hp'

theorem Expands.length_pos (h : Expands p n ls) :
    ∀ l ∈ ls, 0 < l.length ∧ l.length < 64 := by
  induction h with
  | root => exact fun l hl => by cases hl
  | @label n ls hz hp _ ih =>
    intro l hl
    rcases mem_cons.mp hl with rfl | hl
    · rw [slice_length]
      have h64 : ¬ 64 ≤ byte p.mem n := fun h64 => by rw [isPointer_iff.mpr h64] at hp; cases hp
      omega
    · exact ih l hl
  | jump _ _ _ ih => exact ih

end walk

section encode
variable {p : Mem} {n : Nat} {bs : List UInt8} {ls : Labels}

def encodeName (ls : Labels) : Mem := ls.flatMap dnamePutLabel ++ [0]

theorem encodeName_cons (l : List UInt8) (ls : Labels) : encodeName (l :: ls) = dnamePutLabel l ++ encodeName ls := by
  simp [encodeName, append_assoc]

theorem length_encodeName_cons (l : List UInt8) (ls : Labels) :
    (encodeName (l :: ls)).length = l.length + 1 + (encodeName ls).length := by
  rw [encodeName_cons, length_append]
  rfl

theorem length_encodeName_nil : (encodeName []).length = 1 := rfl

theorem At.getD (h : At p n bs) {i : Nat} (hi : i < bs.length) :
    p.getD (n + i) 0 = bs.getD i 0 := by
  obtain ⟨front, back, rfl, rfl⟩ := h
  simp [getD_eq_getElem?_getD, getElem?_append_left, getElem?_append_right, hi]

theorem At.byte {b : UInt8} (h : At p n (b :: bs)) : byte p n = b.toNat := by
  have := h.getD (i := 0) (by simp)
  simp only [Nat.add_zero, getD_cons_zero] at this
  rw [Mdns.byte, this]

theorem At.drop {p : Mem} {n : Nat} {as bs : List UInt8} (h : At p n (as ++ bs)) : At p (n + as.length) bs := by
  obtain ⟨front, back, rfl, rfl⟩ := h
  exact ⟨front ++ as, back, by simp, by simp⟩

theorem At.take {p : Mem} {n : Nat} {as bs : List UInt8} (h : At p n (as ++ bs)) : At p n as := by
  obtain ⟨front, back, rfl, rfl⟩ := h
  exact ⟨front, bs ++ back, by simp, rfl⟩

theorem At.slice (h : At p n bs) : slice p n bs.length = bs := by
  refine ext_getElem (by simp) (fun i h1 h2 => ?_)
  have hi := h.getD h2
  simpa [Mdns.slice, getD_eq_getElem?_getD, getElem?_eq_getElem h2] using hi

theorem expands_encodeName {rel : Bool}
    (hl : ∀ l ∈ ls, 0 < l.length ∧ l.length < 64) (h : At p n (encodeName ls)) : Expands ⟨p, rel⟩ n ls := by
  induction ls generalizing n with
  | nil => exact .root h.byte
  | cons l ls ih =>
    rw [encodeName_cons] at h
    obtain ⟨hpos, h64⟩ := hl l (mem_cons_self ..)
    have hb : byte p n = l.length := by
      have hb : byte p n = (UInt8.ofNat l.length).toNat := h.take.byte
      rw [hb, UInt8.toNat_ofNat', Nat.mod_eq_of_lt (by omega)]
    have htext : slice p (n + 1) (byte p n) = l := by
      rw [hb]
      have hone : At p n ([UInt8.ofNat l.length] ++ l) := h.take
      exact hone.drop.slice
    have hrest : Expands ⟨p, rel⟩ (n + byte p n + 1) ls := by
      refine ih (fun l' h' => hl l' (mem_cons_of_mem _ h')) ?_
      have := h.drop
      rwa [dnamePutLabel, length_cons, ← hb] at this
    have := Expands.label (p := ⟨p, rel⟩) (n := n) (by rw [hb]; omega)
      (by rw [hb]; simp [isPointer]; omega) hrest
    rwa [htext] at this

def labelsFrom (p : Mem) : Nat → Nat → Labels
  | 0, _ => []
  | fuel+1, n =>
    if byte p n = 0 ∨ isPointer (byte p n) = true then []
    else slice p (n + 1) (byte p n) :: labelsFrom p fuel (n + byte p n + 1)

def plainLabels (name : Mem) : Labels := labelsFrom name (name.length + 1) 0

theorem labelsFrom_eq (h : Expands (.plain p) n ls) {fuel : Nat}
    (hf : p.length < fuel + n) : labelsFrom p fuel n = ls := by
  induction h generalizing fuel with
  | root hz =>
    cases fuel with
    | zero => rfl
    | succ fuel => exact if_pos (.inl hz)
  | @label d _ hz hp h ih =>
    cases fuel with
    | zero => exact absurd (byte_eq_zero_of_length_le (p := p) (by omega)) hz
    | succ fuel =>
      have hn : ¬ (byte p d = 0 ∨ isPointer (byte p d) = true) := by
        rintro (h | h)
        · exact hz h
        · exact Bool.false_ne_true (hp.symm.trans h)
      rw [labelsFrom, if_neg hn]
      exact congrArg _ (ih (by omega))
  | jump hr _ _ _ => cases hr

theorem plainLabels_eq {name : Mem} (h : Expands (.plain name) 0 ls) : plainLabels name = ls :=
  labelsFrom_eq h (by omega)

end encode

section copy
variable {p : Mem} {fuel src : Nat} {dst : Mem} {ret : Int}

theorem slice_succ (n len : Nat) : slice p n (len + 1) = p.getD n 0 :: slice p (n + 1) len := by
  simp only [slice, range_succ_eq_map, map_cons, List.map_map, Nat.add_zero]
  refine congrArg _ (map_congr_left (fun i _ => ?_))
  simp [Nat.add_assoc, Nat.add_comm 1 i]

theorem slice_label (n : Nat) : slice p n (byte p n + 1) = dnamePutLabel (slice p (n + 1) (byte p n)) := by
  rw [slice_succ, dnamePutLabel, slice_length, byte, UInt8.ofNat_toNat]

/-- What a copy that succeeds has written: the labels, the zero byte that ends them and, when
a pointer has led to that byte, more that lies behind it. -/
theorem dnameCopy_expands (h : dnameCopy fuel p src = some (dst, 0)) :
    ∃ ls g, dst = encodeName ls ++ g ∧ Expands (.packet p) src ls := by
  have h : loop (copyBody p) fuel (false, src, []) = some (dst, 0) := h
  have hrule := loop_rule
    (P := fun s r => ∀ dst', r = (dst', (0 : Int)) →
      ∃ ls g, dst' = s.2.2 ++ (encodeName ls ++ g) ∧ Expands (.packet p) s.2.1 ls) ?_ ?_ h dst rfl
  · simpa using hrule
  · rintro ⟨inner, n, d⟩ r hr dst' rfl
    by_cases hz : (!inner && decide (byte p n = 0)) = true
    · simp only [copyBody, if_pos hz, Sum.inr.injEq, Prod.mk.injEq, and_true] at hr
      simp only [Bool.and_eq_true, decide_eq_true_eq] at hz
      exact ⟨[], [], by rw [← hr]; simp [encodeName], .root hz.2⟩
    · simp only [copyBody, if_neg hz] at hr
      split_ifs at hr
      simp at hr
  · rintro ⟨inner, n, d⟩ s' r hs ih dst' rfl
    by_cases hz : (!inner && decide (byte p n = 0)) = true
    · simp only [copyBody, if_pos hz] at hs
      cases hs
    · simp only [copyBody, if_neg hz] at hs
      by_cases hp : isPointer (byte p n) = true
      · simp only [if_pos hp, Sum.inl.injEq] at hs
        subst hs
        obtain ⟨ls, g, hd, he⟩ := ih dst' rfl
        exact ⟨ls, g, hd, .jump rfl hp he⟩
      · simp only [if_neg hp] at hs
        split_ifs at hs with hlong
        simp only [Sum.inl.injEq] at hs
        subst hs
        obtain ⟨ls, g, hd, he⟩ := ih dst' rfl
        simp only [slice_label, append_assoc] at hd
        by_cases hz' : byte p n = 0
        · -- a zero byte behind a pointer: it is copied like a label and the walk goes on
          refine ⟨[], encodeName ls ++ g, ?_, .root hz'⟩
          rw [hd, hz']
          simp [encodeName, dnamePutLabel, slice]
        · refine ⟨_ :: ls, g, ?_, .label hz' (Bool.eq_false_iff.mpr hp) he⟩
          rw [hd, encodeName_cons, append_assoc]
          rfl

theorem dnameCopy_name (h : dnameCopy fuel p src = some (dst, ret)) :
    ∃ ls g, dst = encodeName ls ++ g ∧ ∀ l ∈ ls, 0 < l.length ∧ l.length < 64 := by
  have h : loop (copyBody p) fuel (false, src, []) = some (dst, ret) := h
  have hrule := loop_rule
    (P := fun s (r : Mem × Int) => ∃ ls g, r.1 = s.2.2 ++ (encodeName ls ++ g) ∧ ∀ l ∈ ls, 0 < l.length ∧ l.length < 64)
    ?_ ?_ h
  · simpa using hrule
  · rintro ⟨inner, n, d⟩ r hr
    refine ⟨[], [], ?_, nofun⟩
    simp only [copyBody] at hr
    split_ifs at hr <;> cases hr <;> rfl
  · rintro ⟨inner, n, d⟩ s' r hs ⟨ls, g, hd, hl⟩
    simp only [copyBody] at hs
    split_ifs at hs with hz hp hlong <;> cases hs
    · exact ⟨ls, g, hd, hl⟩
    · simp only [slice_label, append_assoc] at hd
      by_cases hz' : byte p n = 0
      · -- a zero byte behind a pointer ends the name here
        refine ⟨[], encodeName ls ++ g, ?_, nofun⟩
        rw [hd, hz']
        simp [encodeName, dnamePutLabel, slice]
      · refine ⟨slice p (n + 1) (byte p n) :: ls, g, ?_, fun l hmem => ?_⟩
        · rw [hd, encodeName_cons, append_assoc]
        · rcases mem_cons.mp hmem with rfl | hmem
          · rw [slice_length]
            have := isPointer_iff.not.mp hp
            omega
          · exact hl l hmem

theorem dnameCopy_length (h : dnameCopy fuel p src = some (dst, ret)) :
    dst.length ≤ maxNameLen := by
  have h : loop (copyBody p) fuel (false, src, []) = some (dst, ret) := h
  refine loop_rule (P := fun s (r : Mem × Int) => s.2.2.length < maxNameLen → r.1.length ≤ maxNameLen) ?_ ?_ h
    (show 0 < maxNameLen by decide)
  · rintro ⟨inner, n, d⟩ r hr hd
    have hroom : (d ++ [0]).length ≤ maxNameLen := by
      rw [length_append]
      exact hd
    simp only [copyBody] at hr
    split_ifs at hr <;> cases hr <;> exact hroom
  · rintro ⟨inner, n, d⟩ s' r hs ih hd
    simp only [copyBody] at hs
    split_ifs at hs with hz hp hlong <;> cases hs
    · exact ih hd
    · refine ih ?_
      simp only [length_append, slice_length]
      omega

theorem dnameCopy_ret (h : dnameCopy fuel p src = some (dst, ret)) :
    ret = 0 ∨ ret = -1 := by
  have h : loop (copyBody p) fuel (false, src, []) = some (dst, ret) := h
  refine loop_rule (P := fun _ (r : Mem × Int) => r.2 = 0 ∨ r.2 = -1) ?_ (fun _ _ _ _ ih => ih) h
  rintro ⟨inner, n, d⟩ r hr
  simp only [copyBody] at hr
  split_ifs at hr <;> cases hr
  · exact .inl rfl
  · exact .inr rfl

end copy

end Mdns
