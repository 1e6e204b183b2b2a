import Mdns.Dname.Compare

/-!
# Where the walkers stop

`dname_overrun` and `dname_copy` look for the zero byte before they follow pointers, and not again
behind one. They read on behind a zero byte that a pointer leads to.
-/
namespace Mdns
open Lib List

section spells
variable {p : Mem} {e n z : Nat} {b d : Bool} {ls : Labels}

/-- The name at `n` lies inside the packet, whose last byte is at `e`. It has the labels `ls` and its zero
byte at `z`, and the last flag says that a pointer leads to that byte. The first flag says that a pointer
has led to `n`. -/
inductive Spells (p : Mem) (e : Nat) : Bool → Nat → Labels → Bool → Nat → Prop where
  | root {b : Bool} {n : Nat} : n ≤ e → byte p n = 0 → Spells p e b n [] b n
  | label {b d : Bool} {n z : Nat} {ls : Labels} : n ≤ e → byte p n ≠ 0 → isPointer (byte p n) = false →
      Spells p e false (n + byte p n + 1) ls d z → Spells p e b n (slice p (n + 1) (byte p n) :: ls) d z
  | jump {b d : Bool} {n z : Nat} {ls : Labels} : n + 1 ≤ e → isPointer (byte p n) = true →
      Spells p e true (pointer p n) ls d z → Spells p e b n ls d z

theorem Spells.expands (h : Spells p e b n ls d z) : Expands (.packet p) n ls := by
  induction h with
  | root _ hz => exact .root hz
  | label _ hz hp _ ih => exact .label hz hp ih
  | jump _ hp _ ih => exact .jump rfl hp ih

theorem Spells.le (h : Spells p e b n ls d z) : n ≤ e := by
  cases h with
  | root hle _ => exact hle
  | label hle _ _ _ => exact hle
  | jump hle _ _ => exact Nat.le_of_succ_le hle

theorem Spells.agree {q : Mem} (h : Spells p e b n ls d z) (hq : Agree (e + 1) p q) : Spells q e b n ls d z := by
  induction h with
  | root hle hz => exact .root hle ((hq.byte (Nat.lt_succ_of_le hle)).symm.trans hz)
  | @label b d n z ls hle hz hp hrest ih =>
    have hbyte := hq.byte (Nat.lt_succ_of_le hle)
    have htext : slice p (n + 1) (byte p n) = slice q (n + 1) (byte q n) := by
      rw [← hbyte]
      refine map_congr_left (fun i hi => hq _ ?_)
      have hend := hrest.le
      have hlt := mem_range.mp hi
      omega
    rw [htext]
    rw [hbyte] at hz hp ih
    exact .label hle hz hp ih
  | @jump b d n z ls hle hp _ ih =>
    have hbyte := hq.byte (show n < e + 1 by omega)
    have hptr : pointer p n = pointer q n := by
      rw [pointer, pointer, hbyte, hq.byte (Nat.lt_succ_of_le hle)]
    rw [hptr] at ih
    exact .jump hle (hbyte ▸ hp) ih

theorem SafeName.spells (h : SafeName p (e + 1) n) (b : Bool) : ∃ ls d z, Spells p e b n ls d z := by
  obtain ⟨k, hlt, hzero, hin⟩ := h
  induction k generalizing n b with
  | zero => exact ⟨[], b, n, .root (Nat.le_of_lt_succ hlt) hzero⟩
  | succ k ih =>
    have hn := hin 0 (Nat.succ_pos k)
    by_cases hz : byte p n = 0
    · exact ⟨[], b, n, .root (Nat.le_of_lt_succ hn.1) hz⟩
    · have hrest : ∀ b, ∃ ls d z, Spells p e b (hop p n) ls d z := fun b =>
        @ih (hop p n) b hlt hzero (fun i hi => hin (i + 1) (Nat.succ_lt_succ hi))
      unfold hop at hrest
      by_cases hp : isPointer (byte p n) = true
      · obtain ⟨ls, d, z, hs⟩ := hrest true
        rw [if_pos hp] at hs
        exact ⟨ls, d, z, .jump (Nat.le_of_lt_succ (hn.2 hp)) hp hs⟩
      · obtain ⟨ls, d, z, hs⟩ := hrest false
        rw [if_neg hp] at hs
        exact ⟨_, d, z, .label (Nat.le_of_lt_succ hn.1) hz (Bool.eq_false_iff.mpr hp) hs⟩

theorem Inside.safeName (h : Inside p (e + 1) n) (hrest : SafeName p (e + 1) (hop p n)) : SafeName p (e + 1) n := by
  obtain ⟨k, hlt, hzero, hin⟩ := hrest
  refine ⟨k + 1, hlt, hzero, ?_⟩
  intro i hi
  cases i with
  | zero => exact h
  | succ i => exact hin i (Nat.lt_of_succ_lt_succ hi)

theorem Spells.safeName (h : Spells p e b n ls d z) : SafeName p (e + 1) n := by
  induction h with
  | @root _ n hle hz =>
    refine ⟨0, Nat.lt_succ_of_le hle, hz, ?_⟩
    intro i hi
    cases hi
  | label hle hz hp _ ih =>
    refine Inside.safeName ⟨Nat.lt_succ_of_le hle, fun hp' => absurd (hp.symm.trans hp') (by decide)⟩ ?_
    rw [hop, hp]
    exact ih
  | jump hle hp _ ih =>
    refine Inside.safeName ⟨by omega, fun _ => Nat.lt_succ_of_le hle⟩ ?_
    rw [hop, if_pos hp]
    exact ih

end spells

section overrun
variable {p : Mem} {e n z : Nat} {b d : Bool} {ls : Labels} {r : Option Bool}

theorem ends_iff : Ends p e n ↔ Comes (fun fuel => dnameOverrun fuel p e n) (some false) := by
  constructor
  · exact Ends.overrun
  · rintro ⟨fuel, hf⟩
    exact ends_of_overrun (hf fuel (Nat.le_refl _))

theorem leaves_iff : Leaves p e n ↔ Comes (fun fuel => dnameOverrun fuel p e n) (some true) := by
  constructor
  · exact Leaves.overrun
  · intro h
    rcases ends_or_leaves_or_cyclic p e n with h' | h' | h'
    · exact absurd (h.unique h'.overrun) (by simp)
    · exact h'
    · exact absurd (h.unique h'.overrun) (by simp)

theorem Spells.overrun (h : Spells p e b n ls d z) (hd : d = false) :
    Comes (fun fuel => loop (overrunBody p e) fuel (b, n)) (some false) := by
  induction h with
  | root hle hz => exact (comes_loop_break (by simp [overrunBody, Nat.not_lt.mpr hle, hz, hd])).mpr rfl
  | label hle hz hp _ ih =>
    exact (comes_loop_continue (by simp [overrunBody, Nat.not_lt.mpr hle, hz, hp])).mpr (ih hd)
  | @jump b _ n _ _ hle hp _ ih =>
    have hn : ¬ n > e := by omega
    exact (comes_loop_continue (by simp [overrunBody, hn, hp, ne_zero_of_isPointer hp])).mpr (ih hd)

theorem Spells.overrun_on (h : Spells p e b n ls d z) (hd : d = true) :
    Comes (fun fuel => loop (overrunBody p e) fuel (b, n)) r ↔
      Comes (fun fuel => loop (overrunBody p e) fuel (false, z + 1)) r := by
  induction h with
  | root hle hz => exact comes_loop_continue (by simp [overrunBody, Nat.not_lt.mpr hle, hz, hd, isPointer_zero])
  | label hle hz hp _ ih =>
    exact (comes_loop_continue (by simp [overrunBody, Nat.not_lt.mpr hle, hz, hp])).trans (ih hd)
  | @jump b _ n _ _ hle hp _ ih =>
    have hn : ¬ n > e := by omega
    exact (comes_loop_continue (by simp [overrunBody, hn, hp, ne_zero_of_isPointer hp])).trans (ih hd)

theorem RunsOut.leaves (h : RunsOut p e n) : Leaves p e n := by
  obtain ⟨k, hk, hlt⟩ := h
  refine ⟨k, ⟨?_, ?_⟩, hlt⟩
  · rw [← Prod.mk.eta (p := (walkStep p)^[k] (false, n)), walkStep_iterate_snd]
    exact .inl hlt
  · intro i hi hv
    rw [← Prod.mk.eta (p := (walkStep p)^[i] (false, n)), walkStep_iterate_snd] at hv
    exact hk.2 i hi (hv.imp id And.right)

theorem comes_overrun_iterate {s : Bool × Nat} {k : Nat} (h : ∀ i < k, ¬ Verdict p e ((walkStep p)^[i] s)) :
    Comes (fun fuel => loop (overrunBody p e) fuel s) r ↔
      Comes (fun fuel => loop (overrunBody p e) fuel ((walkStep p)^[k] s)) r := by
  induction k generalizing s with
  | zero => rfl
  | succ k ih =>
    rw [comes_loop_continue (overrunBody_go s (h 0 (Nat.succ_pos k)))]
    exact ih (fun i hi => h (i + 1) (Nat.succ_lt_succ hi))

def past (p : Mem) (n : Nat) : Nat := if byte p n = 0 then n + 1 else n

theorem overrun_past : Comes (fun fuel => loop (overrunBody p e) fuel (true, n)) r ↔
    Comes (fun fuel => dnameOverrun fuel p e (past p n)) r := by
  show _ ↔ Comes (fun fuel => loop (overrunBody p e) fuel (false, past p n)) r
  by_cases hn : n > e
  · have hpast : past p n > e := by
      unfold past
      split <;> omega
    rw [comes_loop_break (show overrunBody p e (true, n) = .inr true by simp [overrunBody, hn]),
      comes_loop_break (show overrunBody p e (false, past p n) = .inr true by simp [overrunBody, hpast])]
  · by_cases hz : byte p n = 0
    · have hgo : overrunBody p e (true, n) = .inl (false, n + 1) := by simp [overrunBody, hn, hz, isPointer_zero]
      rw [comes_loop_continue hgo, past, if_pos hz]
    · have hsame : overrunBody p e (true, n) = overrunBody p e (false, n) := by simp [overrunBody, hn, hz]
      rw [past, if_neg hz]
      cases hb : overrunBody p e (false, n) with
      | inl s => rw [comes_loop_continue (hsame.trans hb), comes_loop_continue hb]
      | inr a => rw [comes_loop_break (hsame.trans hb), comes_loop_break hb]

theorem CutPointer.overrun_on (h : CutPointer p e n) :
    Comes (fun fuel => dnameOverrun fuel p e n) r ↔
      Comes (fun fuel => dnameOverrun fuel p e (past p (pointer p e))) r := by
  obtain ⟨k, hk, hp, hfree⟩ := h
  have hwalk : ∀ i < k + 1, ¬ Verdict p e ((walkStep p)^[i] (false, n)) := by
    intro i hi hv
    rw [← Prod.mk.eta (p := (walkStep p)^[i] (false, n)), walkStep_iterate_snd] at hv
    exact hfree i (Nat.le_of_lt_succ hi) (hv.imp id And.right)
  have hnext : (walkStep p)^[k + 1] (false, n) = (true, pointer p e) := by
    rw [Function.iterate_succ_apply', ← Prod.mk.eta (p := (walkStep p)^[k] (false, n)), walkStep_iterate_snd, hk]
    simp only [walkStep, hop, hp, if_true]
  rw [← overrun_past, ← hnext]
  exact comes_overrun_iterate hwalk

end overrun

section copy
variable {p : Mem} {e n z : Nat} {b d : Bool} {ls : Labels} {dst out : Mem}

theorem copyBody_label (b : Bool) (dst : Mem) (hz : byte p n ≠ 0) (hp : isPointer (byte p n) = false) :
    copyBody p (b, n, dst) = if dst.length + byte p n + 1 ≥ maxNameLen then .inr (dst ++ [0], -1)
      else .inl (false, n + byte p n + 1, dst ++ dnamePutLabel (slice p (n + 1) (byte p n))) := by
  rw [← slice_label]
  simp [copyBody, hz, hp]

theorem copyBody_jump (b : Bool) (dst : Mem) (hp : isPointer (byte p n) = true) :
    copyBody p (b, n, dst) = .inl (true, pointer p n, dst) := by
  simp [copyBody, hp, ne_zero_of_isPointer hp]

theorem Spells.copy (h : Spells p e b n ls d z) (hd : d = false)
    (hfits : dst.length + (encodeName ls).length ≤ maxNameLen) :
    Comes (fun fuel => loop (copyBody p) fuel (b, n, dst)) (some (dst ++ encodeName ls, 0)) := by
  induction h generalizing dst with
  | root _ hz => exact (comes_loop_break (by simp [copyBody, hz, hd, encodeName])).mpr rfl
  | @label b _ n _ ls _ hz hp _ ih =>
    rw [length_encodeName_cons, slice_length] at hfits
    have hpos : 0 < (encodeName ls).length := by simp [encodeName]
    have hgo := copyBody_label b dst hz hp
    rw [if_neg (by omega)] at hgo
    rw [comes_loop_continue hgo, encodeName_cons, ← append_assoc]
    apply ih hd
    rw [length_append, dnamePutLabel, length_cons, slice_length]
    omega
  | jump _ hp _ ih => exact (comes_loop_continue (copyBody_jump _ dst hp)).mpr (ih hd hfits)

/-- What `dname_copy` leaves of a name that is too long. -/
def cutName : Mem → Labels → Mem
  | dst, [] => dst ++ [0]
  | dst, l :: ls => if maxNameLen ≤ dst.length + l.length + 1 then dst ++ [0] else cutName (dst ++ dnamePutLabel l) ls

theorem Spells.copy_long (h : Spells p e b n ls d z) (hdst : dst.length < maxNameLen)
    (hlong : maxNameLen < dst.length + (encodeName ls).length) :
    Comes (fun fuel => loop (copyBody p) fuel (b, n, dst)) (some (cutName dst ls, -1)) := by
  induction h generalizing dst with
  | root _ hz =>
    rw [length_encodeName_nil] at hlong
    omega
  | @label b _ n _ ls _ hz hp _ ih =>
    rw [length_encodeName_cons, slice_length] at hlong
    have hbody := copyBody_label b dst hz hp
    rw [cutName, slice_length]
    by_cases hfull : dst.length + byte p n + 1 ≥ maxNameLen
    · rw [if_pos hfull] at hbody
      rw [if_pos hfull]
      exact (comes_loop_break hbody).mpr rfl
    · rw [if_neg hfull] at hbody
      rw [if_neg hfull]
      have hlen : (dst ++ dnamePutLabel (slice p (n + 1) (byte p n))).length = dst.length + byte p n + 1 := by
        rw [length_append, dnamePutLabel, length_cons, slice_length]
        omega
      exact (comes_loop_continue hbody).mpr (ih (by omega) (by omega))
  | jump _ hp _ ih => exact (comes_loop_continue (copyBody_jump _ dst hp)).mpr (ih hdst hlong)

theorem copy_longer {fuel : Nat} {s : Bool × Nat × Mem} {ret : Int} (h : loop (copyBody p) fuel s = some (out, ret)) :
    s.2.2.length < out.length := by
  refine loop_rule (P := fun s (r : Mem × Int) => s.2.2.length < r.1.length) ?_ ?_ h
  · rintro ⟨b, n, dst⟩ r hr
    simp only [copyBody] at hr
    split_ifs at hr <;> cases hr <;> simp
  · rintro ⟨b, n, dst⟩ s' r hs ih
    simp only [copyBody] at hs
    split_ifs at hs <;> cases hs
    · exact ih
    · rw [length_append] at ih
      exact Nat.lt_of_le_of_lt (Nat.le_add_right _ _) ih

theorem Spells.copy_on (h : Spells p e b n ls d z) (hd : d = true)
    (hcopy : Comes (fun fuel => loop (copyBody p) fuel (b, n, dst)) (some (out, 0))) :
    dst.length + (encodeName ls).length < out.length := by
  induction h generalizing dst with
  | @root b n _ hz =>
    subst hd
    have hbody : copyBody p (true, n, dst) =
        if dst.length + 1 ≥ maxNameLen then .inr (dst ++ [0], -1) else .inl (false, n + 1, dst ++ slice p n 1) := by
      simp [copyBody, hz, isPointer_zero]
    by_cases hfull : dst.length + 1 ≥ maxNameLen
    · rw [if_pos hfull] at hbody
      rw [comes_loop_break hbody] at hcopy
      cases hcopy
    · rw [if_neg hfull] at hbody
      rw [comes_loop_continue hbody] at hcopy
      obtain ⟨fuel, hf⟩ := hcopy
      have hlen := copy_longer (hf fuel (Nat.le_refl _))
      rw [length_append, slice_length] at hlen
      exact hlen
  | @label b _ n _ ls _ hz hp _ ih =>
    have hbody := copyBody_label b dst hz hp
    by_cases hfull : dst.length + byte p n + 1 ≥ maxNameLen
    · rw [if_pos hfull] at hbody
      rw [comes_loop_break hbody] at hcopy
      cases hcopy
    · rw [if_neg hfull] at hbody
      have hlen := ih hd ((comes_loop_continue hbody).mp hcopy)
      rw [length_append, dnamePutLabel, length_cons, slice_length] at hlen
      rw [length_encodeName_cons, slice_length]
      omega
  | jump _ hp _ ih => exact ih hd ((comes_loop_continue (copyBody_jump _ dst hp)).mp hcopy)

end copy

section agree
variable {p : Mem} {e n : Nat}

/-- What `dname_copy` must do with a name: copy it if it has at most 255 bytes, and give it up otherwise. -/
def CopiesName (p : Mem) (n : Nat) (ls : Labels) : Prop :=
  ∃ dst ret, Comes (fun fuel => dnameCopy fuel p n) (some (dst, ret)) ∧
    (ret = 0 ↔ (encodeName ls).length ≤ maxNameLen) ∧
    (ret = 0 → dst = encodeName ls ∧ Comes (fun fuel => dnameCmp fuel (.plain dst) 0 (.packet p) n) (some 0))

structure WalkersAgree (p : Mem) (e n : Nat) : Prop where
  inside : SafeName p (e + 1) n → ∀ ls, Expands (.packet p) n ls →
    Comes (fun fuel => dnameOverrun fuel p e n) (some false) ∧ CopiesName p n ls
  outside : RunsOut p e n ∨ CutPointer p e n → Comes (fun fuel => dnameOverrun fuel p e n) (some true)

/-- No pointer leads to the zero byte of the name, except where it is too long for `dname_copy` and the
name behind that byte ends. And no pointer lies on the last byte of the packet, except where the name at the
place that it leads to leaves the packet. -/
structure EndsBehindLabel (p : Mem) (e n : Nat) : Prop where
  root : ∀ ls z, Spells p e false n ls true z → maxNameLen < (encodeName ls).length ∧ Ends p e (z + 1)
  cut : CutPointer p e n → Leaves p e (past p (pointer p e))

theorem copiesName_of_short {z : Nat} {ls : Labels} (h : Spells p e false n ls false z)
    (hfits : (encodeName ls).length ≤ maxNameLen) : CopiesName p n ls := by
  have hcopy := @Spells.copy p e n z false false ls [] h rfl (by simpa using hfits)
  refine ⟨encodeName ls, 0, hcopy, ⟨fun _ => hfits, fun _ => rfl⟩, ?_⟩
  intro _
  have hplain : Expands (.plain (encodeName ls)) 0 ls :=
    expands_encodeName h.expands.length_pos ⟨[], [], by simp, rfl⟩
  have hcmp := dnameCmp_comes hplain h.expands
  rw [cmpLabels_eq_zero.mpr rfl] at hcmp
  exact ⟨rfl, hcmp⟩

theorem copiesName_of_long {z : Nat} {d : Bool} {ls : Labels} (h : Spells p e false n ls d z)
    (hlong : maxNameLen < (encodeName ls).length) : CopiesName p n ls := by
  refine ⟨_, -1, @Spells.copy_long p e n z false d ls [] h (by decide) (by simpa using hlong), ?_, ?_⟩
  · constructor
    · intro hret
      cases hret
    · intro hfits
      exact absurd hlong (Nat.not_lt_of_le hfits)
  · intro hret
    cases hret

/-- The walkers agree on a name exactly if its zero byte comes behind a label. -/
theorem walkersAgree_iff (p : Mem) (e n : Nat) : WalkersAgree p e n ↔ EndsBehindLabel p e n := by
  constructor
  · intro h
    refine ⟨?_, ?_⟩
    · intro ls z hs
      obtain ⟨hover, dst, ret, hcopy, hret, hdst⟩ := h.inside hs.safeName ls hs.expands
      have hends : Ends p e (z + 1) := ends_iff.mpr ((hs.overrun_on rfl).mp hover)
      by_cases hfits : (encodeName ls).length ≤ maxNameLen
      · obtain rfl := hret.mpr hfits
        have hmore := @Spells.copy_on p e n z false true ls [] dst hs rfl hcopy
        rw [(hdst rfl).1] at hmore
        simp at hmore
      · exact ⟨Nat.lt_of_not_le hfits, hends⟩
    · intro hcut
      exact leaves_iff.mpr (hcut.overrun_on.mp (h.outside (.inr hcut)))
  · intro h
    refine ⟨?_, ?_⟩
    · intro hsafe ls hls
      obtain ⟨ls', d, z, hs⟩ := hsafe.spells false
      obtain rfl := hs.expands.unique hls
      cases d with
      | false =>
        refine ⟨hs.overrun rfl, ?_⟩
        by_cases hfits : (encodeName ls').length ≤ maxNameLen
        · exact copiesName_of_short hs hfits
        · exact copiesName_of_long hs (Nat.lt_of_not_le hfits)
      | true =>
        obtain ⟨hlong, hends⟩ := h.root ls' z hs
        exact ⟨(hs.overrun_on rfl).mpr hends.overrun, copiesName_of_long hs hlong⟩
    · rintro (hout | hcut)
      · exact hout.leaves.overrun
      · exact hcut.overrun_on.mpr (h.cut hcut).overrun

def rootPointer : Mem := replicate 12 0 ++ [0, 192, 12]

/-- The name behind the pointer is the root, but `dname_overrun` goes from one byte to the other. -/
theorem dnameOverrun_rootPointer_hangs : SafeName rootPointer 15 13 ∧ Expands (.packet rootPointer) 13 [] ∧
    ¬ ∃ fuel, dnameOverrun fuel rootPointer 14 13 ≠ none := by
  have hs : Spells rootPointer 14 false 13 [] true 12 := .jump (by decide) (by decide) (.root (by decide) (by decide))
  have hcircles : Cyclic rootPointer 14 13 := by
    refine ⟨0, 2, by decide, ?_, ?_⟩
    · decide
    · decide
  refine ⟨hs.safeName, hs.expands, ?_⟩
  rintro ⟨fuel, hfuel⟩
  exact hfuel (loop_never overrunBody_go hcircles.never fuel)

end agree

end Mdns
