import Mdns.Dname.Chain
import Mdns.Dname.Expand
import Mdns.Lib.Compare

/-!
# The comparison of names

`dname_cmp` need not come to the end of either name. What it comes to is a three-way comparison, and
on names that expand the comparison of the labels.
-/
namespace Mdns
open Lib List

section ends

theorem expands_of_hop {p : Mem} {k n : Nat} (h : byte p ((hop p)^[k] n) = 0) : ∃ ls, Expands (.packet p) n ls := by
  induction k generalizing n with
  | zero => exact ⟨[], .root h⟩
  | succ k ih =>
    obtain ⟨ls, hls⟩ := ih h
    by_cases hz : byte p n = 0
    · exact ⟨[], .root hz⟩
    · unfold hop at hls
      by_cases hp : isPointer (byte p n) = true
      · rw [if_pos hp] at hls
        exact ⟨ls, .jump rfl hp hls⟩
      · rw [if_neg hp] at hls
        exact ⟨_, .label hz (Bool.eq_false_iff.mpr hp) hls⟩

theorem Ends.expands {p : Mem} {e n : Nat} (h : Ends p e n) : ∃ ls, Expands (.packet p) n ls := by
  obtain ⟨k, hk, hle⟩ := h.stopsAt
  rcases hk.1 with hlt | hz
  · exact absurd hlt (Nat.not_lt_of_le hle)
  · exact expands_of_hop hz

end ends

section bytes

theorem cmpBytes_range (as bs : List UInt8) : cmpBytes as bs = -1 ∨ cmpBytes as bs = 0 ∨ cmpBytes as bs = 1 := by
  rw [cmpBytes_eq]
  exact verdict_range _ _

theorem cmpBytes_swap (as bs : List UInt8) : cmpBytes bs as = -cmpBytes as bs := by
  rw [cmpBytes_eq, cmpBytes_eq]
  exact verdict_swap _ _

theorem cmpBytes_trans {as bs cs : List UInt8} (h : 0 ≤ cmpBytes as bs) (h' : 0 ≤ cmpBytes bs cs) :
    cmpBytes as cs = max (cmpBytes as bs) (cmpBytes bs cs) := by
  rw [cmpBytes_eq] at h h'
  rw [cmpBytes_eq, cmpBytes_eq, cmpBytes_eq]
  exact verdict_trans h h'

theorem threeWay_cmpBytes : ThreeWay (fun as bs (c : Int) => cmpBytes as bs = c) where
  range := by
    rintro as bs c rfl
    exact cmpBytes_range as bs
  unique := by
    rintro as bs c d rfl rfl
    rfl
  symm := by
    rintro as bs c rfl
    exact cmpBytes_swap as bs
  trans := by
    rintro as bs cs c d rfl rfl hc hd
    exact cmpBytes_trans hc hd

end bytes

section names
variable {p p1 p2 p3 : Src} {n n' n1 n2 n3 a b : Nat} {c d : Int} {fuel x y : Nat} {m1 m2 : Mem}

theorem chase_cases (h : chase fuel p n = some n') :
    (isPointer (byte p.mem n) = false ∧ n' = n) ∨
      ∃ k, fuel = k + 1 ∧ isPointer (byte p.mem n) = true ∧ p.rel = true ∧ chase k p (pointer p.mem n) = some n' := by
  cases fuel with
  | zero => cases h
  | succ k =>
    unfold chase loop chaseBody at h
    by_cases hp : isPointer (byte p.mem n) = true
    · by_cases hr : p.rel = true
      · rw [if_pos hp, if_pos hr] at h
        exact .inr ⟨k, rfl, hp, hr, h⟩
      · rw [if_pos hp, if_neg hr] at h
        cases h
    · rw [if_neg hp] at h
      cases h
      exact .inl ⟨Bool.eq_false_iff.mpr hp, rfl⟩

theorem Lands.not_pointer (h : Lands p n n') : isPointer (byte p.mem n') = false := by
  obtain ⟨fuel, hall⟩ := h
  have hf : chase fuel p n = some n' := hall fuel (Nat.le_refl fuel)
  clear hall
  induction fuel generalizing n with
  | zero => cases hf
  | succ k ih =>
    rcases chase_cases hf with ⟨hp, rfl⟩ | ⟨k', hk, -, -, hc⟩
    · exact hp
    · cases hk
      exact ih hc

def headCmp (m1 : Mem) (a : Nat) (m2 : Mem) (b : Nat) : Int :=
  if byte m1 a = 0 then if byte m2 b = 0 then 0 else -1
  else if byte m2 b = 0 then 1 else labelCmpAt m1 a m2 b

/-- What `dname_cmp` comes to: the labels that the two names land on decide, or they are equal and
the names behind them decide. -/
inductive NameCmp (p1 p2 : Src) : Nat → Nat → Int → Prop where
  | here {n1 n2 a b : Nat} (h1 : Lands p1 n1 a) (h2 : Lands p2 n2 b)
      (h : byte p1.mem a = 0 ∨ byte p2.mem b = 0 ∨ labelCmpAt p1.mem a p2.mem b ≠ 0) :
      NameCmp p1 p2 n1 n2 (headCmp p1.mem a p2.mem b)
  | next {n1 n2 a b : Nat} {c : Int} (h1 : Lands p1 n1 a) (h2 : Lands p2 n2 b) (hz1 : byte p1.mem a ≠ 0)
      (hz2 : byte p2.mem b ≠ 0) (hsame : labelCmpAt p1.mem a p2.mem b = 0)
      (h : NameCmp p1 p2 (a + byte p1.mem a + 1) (b + byte p2.mem b + 1) c) : NameCmp p1 p2 n1 n2 c

theorem NameCmp.jump_left (hr : p1.rel = true) (hp : isPointer (byte p1.mem n1) = true)
    (h : NameCmp p1 p2 (pointer p1.mem n1) n2 c) : NameCmp p1 p2 n1 n2 c := by
  cases h with
  | here h1 h2 h => exact .here (lands_jump hr hp h1) h2 h
  | next h1 h2 hz1 hz2 hsame h => exact .next (lands_jump hr hp h1) h2 hz1 hz2 hsame h

theorem NameCmp.jump_right (hr : p2.rel = true) (hp : isPointer (byte p2.mem n2) = true)
    (h : NameCmp p1 p2 n1 (pointer p2.mem n2) c) : NameCmp p1 p2 n1 n2 c := by
  cases h with
  | here h1 h2 h => exact .here h1 (lands_jump hr hp h2) h
  | next h1 h2 hz1 hz2 hsame h => exact .next h1 (lands_jump hr hp h2) hz1 hz2 hsame h

theorem cmpBody_left (hp : isPointer (byte p1.mem n1) = true) :
    cmpBody p1 p2 (n1, n2) = if p1.rel then .inl (pointer p1.mem n1, n2) else .inr none := by
  simp only [cmpBody, if_pos hp]

theorem cmpBody_right (hp1 : isPointer (byte p1.mem n1) = false) (hp2 : isPointer (byte p2.mem n2) = true) :
    cmpBody p1 p2 (n1, n2) = if p2.rel then .inl (n1, pointer p2.mem n2) else .inr none := by
  simp only [cmpBody, hp1, Bool.false_eq_true, if_false, if_pos hp2]

theorem cmpBody_head (hp1 : isPointer (byte p1.mem n1) = false) (hp2 : isPointer (byte p2.mem n2) = false) :
    cmpBody p1 p2 (n1, n2) =
      if byte p1.mem n1 = 0 ∨ byte p2.mem n2 = 0 ∨ labelCmpAt p1.mem n1 p2.mem n2 ≠ 0 then
        .inr (some (headCmp p1.mem n1 p2.mem n2))
      else .inl (n1 + byte p1.mem n1 + 1, n2 + byte p2.mem n2 + 1) := by
  by_cases hz1 : byte p1.mem n1 = 0 <;> by_cases hz2 : byte p2.mem n2 = 0 <;>
    by_cases hsame : labelCmpAt p1.mem n1 p2.mem n2 = 0 <;>
    simp [cmpBody, headCmp, hp1, hp2, hz1, hz2, hsame, isPointer_zero]

theorem nameCmp_of_loop (h : loop (cmpBody p1 p2) fuel (n1, n2) = some (some c)) : NameCmp p1 p2 n1 n2 c := by
  induction fuel generalizing n1 n2 with
  | zero => cases h
  | succ fuel ih =>
    obtain ⟨k, hk, hbody⟩ := loop_some_cases h
    cases hk
    cases hp1 : isPointer (byte p1.mem n1) with
    | true =>
      rw [cmpBody_left hp1] at hbody
      split at hbody
      · next hr =>
        rcases hbody with hb | ⟨s', hs, hl⟩
        · cases hb
        · cases hs
          exact (ih hl).jump_left hr hp1
      · rcases hbody with hb | ⟨s', hs, -⟩
        · cases hb
        · cases hs
    | false =>
      cases hp2 : isPointer (byte p2.mem n2) with
      | true =>
        rw [cmpBody_right hp1 hp2] at hbody
        split at hbody
        · next hr =>
          rcases hbody with hb | ⟨s', hs, hl⟩
          · cases hb
          · cases hs
            exact (ih hl).jump_right hr hp2
        · rcases hbody with hb | ⟨s', hs, -⟩
          · cases hb
          · cases hs
      | false =>
        have h1 := lands_self hp1
        have h2 := lands_self hp2
        rw [cmpBody_head hp1 hp2] at hbody
        split at hbody
        · next hdone =>
          rcases hbody with hb | ⟨s', hs, -⟩
          · cases hb
            exact .here h1 h2 hdone
          · cases hs
        · next hgo =>
          rw [not_or, not_or, not_not] at hgo
          rcases hbody with hb | ⟨s', hs, hl⟩
          · cases hb
          · cases hs
            exact .next h1 h2 hgo.1 hgo.2.1 hgo.2.2 (ih hl)

theorem loop_cmpBody_lands {r : Option Int} (h1 : Lands p1 n1 a) (h2 : Lands p2 n2 b)
    (h : ∃ fuel, loop (cmpBody p1 p2) fuel (a, b) = some r) : ∃ fuel, loop (cmpBody p1 p2) fuel (n1, n2) = some r := by
  have hleft : ∀ {n2}, (∃ fuel, loop (cmpBody p1 p2) fuel (a, n2) = some r) →
      ∃ fuel, loop (cmpBody p1 p2) fuel (n1, n2) = some r := by
    obtain ⟨steps, hall⟩ := h1
    have hsteps : chase steps p1 n1 = some a := hall steps (Nat.le_refl steps)
    clear hall
    induction steps generalizing n1 with
    | zero => cases hsteps
    | succ k ih =>
      intro n2 hrun
      rcases chase_cases hsteps with ⟨-, rfl⟩ | ⟨k', hk, hp, hr, hc⟩
      · exact hrun
      · cases hk
        obtain ⟨fuel, hf⟩ := ih hc hrun
        exact ⟨fuel + 1, (loop_continue (by rw [cmpBody_left hp, if_pos hr]) fuel).trans hf⟩
  have hpa := h1.not_pointer
  have hright : (∃ fuel, loop (cmpBody p1 p2) fuel (a, b) = some r) → ∃ fuel,
    loop (cmpBody p1 p2) fuel (a, n2) = some r := by
    obtain ⟨steps, hall⟩ := h2
    have hsteps : chase steps p2 n2 = some b := hall steps (Nat.le_refl steps)
    clear hall
    induction steps generalizing n2 with
    | zero => cases hsteps
    | succ k ih =>
      intro hrun
      rcases chase_cases hsteps with ⟨-, rfl⟩ | ⟨k', hk, hp, hr, hc⟩
      · exact hrun
      · cases hk
        obtain ⟨fuel, hf⟩ := ih hc hrun
        exact ⟨fuel + 1, (loop_continue (by rw [cmpBody_right hpa hp, if_pos hr]) fuel).trans hf⟩
  exact hleft (hright h)

theorem NameCmp.loop (h : NameCmp p1 p2 n1 n2 c) : ∃ fuel, Lib.loop (cmpBody p1 p2) fuel (n1, n2) = some (some c) := by
  induction h with
  | here h1 h2 hdone =>
    refine loop_cmpBody_lands h1 h2 ⟨1, loop_break ?_ 0⟩
    rw [cmpBody_head h1.not_pointer h2.not_pointer, if_pos hdone]
  | next h1 h2 hz1 hz2 hsame _ ih =>
    obtain ⟨fuel, hf⟩ := ih
    refine loop_cmpBody_lands h1 h2 ⟨fuel + 1, (loop_continue ?_ fuel).trans hf⟩
    rw [cmpBody_head h1.not_pointer h2.not_pointer, if_neg (by rintro (h | h | h); exacts [hz1 h, hz2 h, h hsame])]

theorem dnameCmp_iff : Comes (fun fuel => dnameCmp fuel p1 n1 p2 n2) (some c) ↔ NameCmp p1 p2 n1 n2 c := by
  constructor
  · rintro ⟨fuel, hf⟩
    have h : (Lib.loop (cmpBody p1 p2) fuel (n1, n2)).join = some c := hf fuel (Nat.le_refl fuel)
    exact nameCmp_of_loop (Option.join_eq_some_iff.mp h)
  · intro h
    obtain ⟨fuel, hf⟩ := h.loop
    have hd : dnameCmp fuel p1 n1 p2 n2 = some c := by rw [dnameCmp, hf]; rfl
    exact hd ▸ (stable_dnameCmp p1 n1 p2 n2).comes (by rw [hd]; simp)

theorem nameCmp_of_dnameCmp (h : dnameCmp fuel p1 n1 p2 n2 = some c) : NameCmp p1 p2 n1 n2 c :=
  nameCmp_of_loop (Option.join_eq_some_iff.mp h)

theorem Lands.unique (h : Lands p n a) (h' : Lands p n b) : a = b := Option.some.inj (Comes.unique h h')

theorem Lands.expands {ls : Labels} (h : Lands p n a) (h' : Expands p a ls) : Expands p n ls := by
  obtain ⟨steps, hall⟩ := h
  have hsteps : chase steps p n = some a := hall steps (Nat.le_refl steps)
  clear hall
  induction steps generalizing n with
  | zero => cases hsteps
  | succ k ih =>
    rcases chase_cases hsteps with ⟨-, rfl⟩ | ⟨k', hk, hp, hr, hc⟩
    · exact h'
    · cases hk
      exact .jump hr hp (ih hc)

theorem headCmp_swap (m1 : Mem) (a : Nat) (m2 : Mem) (b : Nat) : headCmp m2 b m1 a = -headCmp m1 a m2 b := by
  unfold headCmp
  split <;> split <;> simp [labelCmpAt, cmpBytes_swap (slice m1 _ _)]

theorem NameCmp.expands (h : NameCmp p1 p2 n1 n2 0) : ∃ ls, Expands p1 n1 ls ∧ Expands p2 n2 ls := by
  generalize hc : (0 : Int) = c at h
  induction h with
  | @here n1 n2 a b h1 h2 hdone =>
    have hz : byte p1.mem a = 0 ∧ byte p2.mem b = 0 := by
      unfold headCmp at hc
      by_cases hz1 : byte p1.mem a = 0 <;> by_cases hz2 : byte p2.mem b = 0
      · exact ⟨hz1, hz2⟩
      · simp [hz1, hz2] at hc
      · simp [hz1, hz2] at hc
      · rcases hdone with h | h | h
        · exact absurd h hz1
        · exact absurd h hz2
        · rw [if_neg hz1, if_neg hz2] at hc
          exact absurd hc.symm h
    exact ⟨[], h1.expands (.root hz.1), h2.expands (.root hz.2)⟩
  | @next n1 n2 a b c h1 h2 hz1 hz2 hsame h ih =>
    obtain ⟨ls, hls1, hls2⟩ := ih hc
    have hlabel : slice p1.mem (a + 1) (byte p1.mem a) = slice p2.mem (b + 1) (byte p2.mem b) := cmpBytes_eq_zero.mp hsame
    refine ⟨_, h1.expands (.label hz1 h1.not_pointer hls1), h2.expands ?_⟩
    rw [hlabel]
    exact .label hz2 h2.not_pointer hls2

def nameOrder (x y : Src × Nat) (c : Int) : Prop := NameCmp x.1 y.1 x.2 y.2 c

theorem NameCmp.swap (h : NameCmp p1 p2 n1 n2 c) : NameCmp p2 p1 n2 n1 (-c) := by
  induction h with
  | @here n1 n2 a b h1 h2 hdone =>
    rw [← headCmp_swap]
    refine .here h2 h1 ?_
    rcases hdone with h | h | h
    · exact .inr (.inl h)
    · exact .inl h
    · refine .inr (.inr fun hz => h ?_)
      unfold labelCmpAt at hz ⊢
      rw [cmpBytes_swap, hz, Int.neg_zero]
  | next h1 h2 hz1 hz2 hsame _ ih =>
    refine .next h2 h1 hz2 hz1 ?_ ih
    unfold labelCmpAt at hsame ⊢
    rw [cmpBytes_swap, hsame, Int.neg_zero]

theorem headCmp_range (m1 : Mem) (a : Nat) (m2 : Mem) (b : Nat) :
    headCmp m1 a m2 b = -1 ∨ headCmp m1 a m2 b = 0 ∨ headCmp m1 a m2 b = 1 := by
  unfold headCmp
  split <;> split <;> simp [labelCmpAt, cmpBytes_range]

theorem NameCmp.range (h : NameCmp p1 p2 n1 n2 c) : c = -1 ∨ c = 0 ∨ c = 1 := by
  induction h with
  | here h1 h2 hdone => exact headCmp_range _ _ _ _
  | next _ _ _ _ _ _ ih => exact ih

theorem headCmp_trans {m3 : Mem} {z : Nat} (h : 0 ≤ headCmp m1 x m2 y) (h' : 0 ≤ headCmp m2 y m3 z) :
    headCmp m1 x m3 z = max (headCmp m1 x m2 y) (headCmp m2 y m3 z) := by
  unfold headCmp labelCmpAt at *
  have h1 := cmpBytes_range (slice m1 (x + 1) (byte m1 x)) (slice m2 (y + 1) (byte m2 y))
  have h2 := cmpBytes_range (slice m2 (y + 1) (byte m2 y)) (slice m3 (z + 1) (byte m3 z))
  have h3 := @cmpBytes_trans (slice m1 (x + 1) (byte m1 x)) (slice m2 (y + 1) (byte m2 y))
    (slice m3 (z + 1) (byte m3 z))
  split_ifs at * <;> omega

theorem headCmp_label (hx : byte m1 x ≠ 0) (hy : byte m2 y ≠ 0) :
    headCmp m1 x m2 y = labelCmpAt m1 x m2 y := by
  rw [headCmp, if_neg hx, if_neg hy]

theorem headCmp_pos (hdone : byte m1 x = 0 ∨ byte m2 y = 0 ∨ labelCmpAt m1 x m2 y ≠ 0)
    (h : 0 ≤ headCmp m1 x m2 y) : byte m1 x = 0 ∧ byte m2 y = 0 ∨ byte m1 x ≠ 0 ∧ headCmp m1 x m2 y = 1 := by
  have hrange := headCmp_range m1 x m2 y
  by_cases hx : byte m1 x = 0
  · by_cases hy : byte m2 y = 0
    · exact .inl ⟨hx, hy⟩
    · rw [headCmp, if_pos hx, if_neg hy] at h
      omega
  · refine .inr ⟨hx, ?_⟩
    by_cases hy : byte m2 y = 0
    · rw [headCmp, if_neg hx, if_pos hy]
    · have hlabel := headCmp_label hx hy
      rcases hdone with h0 | h0 | h0
      · exact absurd h0 hx
      · exact absurd h0 hy
      · omega

theorem NameCmp.trans (h : NameCmp p1 p2 n1 n2 c) (h' : NameCmp p2 p3 n2 n3 d) (hc : 0 ≤ c) (hd : 0 ≤ d) :
    NameCmp p1 p3 n1 n3 (max c d) := by
  induction h generalizing n3 with
  | @here n1 n2 x y hx hy hdone =>
    have hrange := h'.range
    have hfirst := headCmp_pos hdone hc
    cases h' with
    | @here _ _ y' z hy' hz hdone' =>
      cases hy.unique hy'
      rw [← headCmp_trans hc hd]
      refine .here hx hz ?_
      by_contra hno
      rw [not_or, not_or, not_not] at hno
      -- the first of the three has a label, so the first comparison came to one
      rcases hfirst with ⟨h0, -⟩ | ⟨-, h1⟩
      · exact hno.1 h0
      · have h13 := headCmp_trans hc hd
        rw [headCmp_label hno.1 hno.2.1, hno.2.2] at h13
        omega
    | @next _ _ y' z _ hy' hz hzy hzz hsame _ =>
      cases hy.unique hy'
      rcases hfirst with ⟨-, h0⟩ | ⟨hzx, h1⟩
      · exact absurd h0 hzy
      · have hyz : headCmp p2.mem y p3.mem z = 0 := (headCmp_label hzy hzz).trans hsame
        have h13 := headCmp_trans hc (by rw [hyz])
        have hmax : max (headCmp p1.mem x p2.mem y) d = headCmp p1.mem x p3.mem z := by omega
        rw [hmax]
        refine .here hx hz (.inr (.inr ?_))
        rw [← headCmp_label hzx hzz]
        omega
  | @next n1 n2 x y c hx hy hzx hzy hsame hrest ih =>
    have hrange := hrest.range
    have hxy : headCmp p1.mem x p2.mem y = 0 := (headCmp_label hzx hzy).trans hsame
    cases h' with
    | @here _ _ y' z hy' hz hdone' =>
      cases hy.unique hy'
      rcases headCmp_pos hdone' hd with ⟨h0, -⟩ | ⟨-, h1⟩
      · exact absurd h0 hzy
      · have h13 := headCmp_trans (by rw [hxy]) hd
        have hmax : max c (headCmp p2.mem y p3.mem z) = headCmp p1.mem x p3.mem z := by omega
        rw [hmax]
        refine .here hx hz ?_
        by_contra hno
        rw [not_or, not_or, not_not] at hno
        rw [headCmp_label hno.1 hno.2.1, hno.2.2] at h13
        omega
    | @next _ _ y' z _ hy' hz hzy' hzz hsame' hrest' =>
      cases hy.unique hy'
      refine .next hx hz hzx hzz ?_ (ih hrest' hc)
      have hyz : headCmp p2.mem y p3.mem z = 0 := (headCmp_label hzy hzz).trans hsame'
      have h13 := headCmp_trans (by rw [hxy]) (by rw [hyz])
      rw [headCmp_label hzx hzz] at h13
      omega

theorem threeWay_nameOrder : ThreeWay nameOrder where
  range := NameCmp.range
  unique := fun h h' => Option.some.inj ((dnameCmp_iff.mpr h).unique (dnameCmp_iff.mpr h'))
  symm := NameCmp.swap
  trans := NameCmp.trans

end names

section lexicographic
variable {x y : Mem × Nat}

/-- `dname_cmp` on two names in packets comes to `c`. -/
def Compared (x y : Mem × Nat) (c : Int) : Prop :=
  Comes (fun fuel => dnameCmp fuel (.packet x.1) x.2 (.packet y.1) y.2) (some c)

/-- The chain of a name that neither comes to an offset twice nor leaves the packet. -/
structure EndsInside (e : Nat) (x : Mem × Nat) : Prop where
  acyclic : ¬ Loops x.1 e x.2
  inside : ¬ RunsOut x.1 e x.2

theorem EndsInside.expands {e : Nat} (h : EndsInside e x) : ∃ ls, Expands (.packet x.1) x.2 ls := by
  obtain ⟨k, hk⟩ := (stopsAt_or_circles (finite_not_atEnd e) x.2).resolve_right h.acyclic
  rcases hk.1 with hlt | hz
  · exact absurd ⟨k, hk, hlt⟩ h.inside
  · exact expands_of_hop hz

theorem compared_values {lx ly : Labels} (hx : Expands (.packet x.1) x.2 lx)
    (hy : Expands (.packet y.1) y.2 ly) : Compared x y (verdict (values lx) (values ly)) := by
  rw [← cmpLabels_eq]
  exact dnameCmp_comes hx hy

theorem Compared.unique {c d : Int} (h : Compared x y c) (h' : Compared x y d) : c = d :=
  Option.some.inj (Comes.unique h h')

/-- What it means that names are compared by a linear order of what they expand to. -/
structure OrdersNames (x y z : Mem × Nat) (lx ly lz : Labels) : Prop where
  lexicographic : Compared x y (verdict (values lx) (values ly))
  equal : Compared x y 0 ↔ lx = ly
  antisymmetric : ∀ c, Compared x y c → Compared y x (-c)
  transitive : ∀ c d, Compared x y c → Compared y z d → c ≤ 0 → d ≤ 0 → ∃ b ≤ 0, Compared x z b
  compression : ∀ x' y' : Mem × Nat, Expands (.packet x'.1) x'.2 lx → Expands (.packet y'.1) y'.2 ly →
    ∀ c, Compared x y c → Compared x' y' c

/-- `dname_cmp` is the lexicographic order of the expanded names. -/
theorem dnameCmp_ordersNames {e1 e2 e3 : Nat} {z : Mem × Nat} (hx : EndsInside e1 x) (hy : EndsInside e2 y)
    (hz : EndsInside e3 z) :
    ∃ lx ly lz, Expands (.packet x.1) x.2 lx ∧ Expands (.packet y.1) y.2 ly ∧ Expands (.packet z.1) z.2 lz ∧
      OrdersNames x y z lx ly lz := by
  obtain ⟨lx, hlx⟩ := hx.expands
  obtain ⟨ly, hly⟩ := hy.expands
  obtain ⟨lz, hlz⟩ := hz.expands
  have hxy := compared_values hlx hly
  have hyz := compared_values hly hlz
  refine ⟨lx, ly, lz, hlx, hly, hlz, hxy, ?_, ?_, ?_, ?_⟩
  · constructor
    · intro h
      exact values_inj.mp (verdict_eq_zero.mp (hxy.unique h))
    · rintro rfl
      rw [← verdict_self (values lx)]
      exact hxy
  · intro c hc
    rw [← hxy.unique hc, ← verdict_swap]
    exact compared_values hly hlx
  · intro c d hc hd hc0 hd0
    rw [← hxy.unique hc, verdict_le] at hc0
    rw [← hyz.unique hd, verdict_le] at hd0
    exact ⟨_, verdict_le.mpr (hc0.trans hd0), compared_values hlx hlz⟩
  · intro x' y' hx' hy' c hc
    rw [← hxy.unique hc]
    exact compared_values hx' hy'

/-- `a` in full and behind a pointer, and `b`. -/
def twoNames : Mem := [1, 97, 0, 192, 0, 1, 98, 0]

theorem dnameCmp_ordersNames_twoNames : ∃ lx ly lz, OrdersNames (twoNames, 0) (twoNames, 3) (twoNames, 5) lx ly lz := by
  have hends : ∀ n, SafeName twoNames 8 n → EndsInside 7 (twoNames, n) := by
    intro n h
    obtain ⟨hout, hloop, -⟩ := safeName_iff.mp h
    exact ⟨hloop, hout⟩
  have hin : ∀ n ∈ [0, 3, 5], Inside twoNames 8 n := by
    unfold Inside
    decide
  have hx : SafeName twoNames 8 0 := by
    refine ⟨1, by decide, by decide, ?_⟩
    intro i hi
    obtain rfl := Nat.lt_one_iff.mp hi
    exact hin 0 (by decide)
  have hy : SafeName twoNames 8 3 := by
    refine ⟨2, by decide, by decide, ?_⟩
    intro i hi
    match i, hi with
    | 0, _ => exact hin 3 (by decide)
    | 1, _ => exact hin 0 (by decide)
  have hz : SafeName twoNames 8 5 := by
    refine ⟨1, by decide, by decide, ?_⟩
    intro i hi
    obtain rfl := Nat.lt_one_iff.mp hi
    exact hin 5 (by decide)
  obtain ⟨lx, ly, lz, -, -, -, h⟩ := dnameCmp_ordersNames (hends 0 hx) (hends 3 hy) (hends 5 hz)
  exact ⟨lx, ly, lz, h⟩

end lexicographic

end Mdns
