import Mdns.Store

/-!
# Text records

`txt_to_c_ncpy` on the data of a TXT record. A string that is skipped is not taken off `tlen`, and
the colons are not taken off `remaining`, so it is right only where neither counter matters.
-/
namespace Mdns
open Lib List Option

section record
variable {strs : List (List UInt8)}

def encodeTxt (ss : List (List UInt8)) : Mem := ss.flatMap dnamePutLabel

inductive Tail where
  | done
  | zero (more : Mem)
  | cut (len : UInt8) (text : Mem) (h : text.length < len.toNat)

def Tail.bytes : Tail → Mem
  | .done => []
  | .zero more => 0 :: more
  | .cut len text _ => len :: text

/-- The data of a record, as it is read: non-empty strings up to the end, to a zero byte or to a
string that the record has not room for. -/
structure TxtRecord where
  strings : List (List UInt8)
  tail : Tail
  len : ∀ s ∈ strings, 0 < s.length ∧ s.length < 256

def TxtRecord.bytes (r : TxtRecord) : Mem := encodeTxt r.strings ++ r.tail.bytes

@[simp] theorem encodeTxt_nil : encodeTxt [] = [] := rfl

theorem encodeTxt_cons (s : List UInt8) (ss : List (List UInt8)) :
    encodeTxt (s :: ss) = dnamePutLabel s ++ encodeTxt ss := by
  simp [encodeTxt]

theorem encodeTxt_append (ss ts : List (List UInt8)) : encodeTxt (ss ++ ts) = encodeTxt ss ++ encodeTxt ts := by
  simp [encodeTxt]

@[simp] theorem length_dnamePutLabel (s : List UInt8) : (dnamePutLabel s).length = s.length + 1 := rfl

theorem length_encodeTxt_cons (s : List UInt8) (ss : List (List UInt8)) :
    (encodeTxt (s :: ss)).length = s.length + 1 + (encodeTxt ss).length := by
  rw [encodeTxt_cons, length_append, length_dnamePutLabel]

theorem exists_record (bs : Mem) : ∃ r : TxtRecord, r.bytes = bs := by
  induction hn : bs.length using Nat.strong_induction_on generalizing bs with
  | _ n ih =>
    subst hn
    cases bs with
    | nil => exact ⟨⟨[], .done, nofun⟩, rfl⟩
    | cons b bs =>
      by_cases hcut : bs.length < b.toNat
      · exact ⟨⟨[], .cut b bs hcut, nofun⟩, rfl⟩
      · by_cases hz : b = 0
        · exact ⟨⟨[], .zero bs, nofun⟩, by rw [hz]; rfl⟩
        · have hlen : (bs.take b.toNat).length = b.toNat := by
            rw [length_take]
            omega
          have hpos : b.toNat ≠ 0 := fun h => hz (UInt8.toNat_inj.mp h)
          obtain ⟨r, hr⟩ := ih (bs.drop b.toNat).length (by rw [length_drop, length_cons]; omega) _ rfl
          refine ⟨⟨bs.take b.toNat :: r.strings, r.tail, ?_⟩, ?_⟩
          · intro s hs
            rcases mem_cons.mp hs with rfl | hs
            · have := b.toNat_lt
              omega
            · exact r.len s hs
          · have hbyte : UInt8.ofNat (bs.take b.toNat).length = b := by rw [hlen, UInt8.ofNat_toNat]
            show encodeTxt (bs.take b.toNat :: r.strings) ++ r.tail.bytes = b :: bs
            rw [encodeTxt_cons, append_assoc, show encodeTxt r.strings ++ r.tail.bytes = r.bytes from rfl, hr,
              dnamePutLabel, hbyte, cons_append, take_append_drop]

theorem ofNat_inj_of_lt {a b : Nat} (ha : a < 256) (hb : b < 256) (h : UInt8.ofNat a = UInt8.ofNat b) : a = b := by
  rw [← toNat_ofNat_lt ha, ← toNat_ofNat_lt hb, h]

theorem strings_of_encodeTxt {ss : List (List UInt8)} {t : Mem} (hss : ∀ s ∈ ss, 0 < s.length ∧ s.length < 256)
    (hstrs : ∀ s ∈ strs, s.length < 256) (h : encodeTxt ss ++ t = encodeTxt strs) :
    ∃ more, strs = ss ++ more ∧ t = encodeTxt more := by
  induction ss generalizing strs with
  | nil => exact ⟨strs, rfl, h⟩
  | cons s ss ih =>
    obtain ⟨-, hs⟩ := hss s (mem_cons_self ..)
    cases strs with
    | nil =>
      rw [encodeTxt_cons, dnamePutLabel] at h
      cases h
    | cons s' strs =>
      have hs' := hstrs s' (mem_cons_self ..)
      rw [encodeTxt_cons, encodeTxt_cons, dnamePutLabel, dnamePutLabel, append_assoc, cons_append,
        cons_append] at h
      obtain ⟨hlen, htexts⟩ := List.cons.inj h
      obtain ⟨rfl, hrest⟩ := append_inj htexts (ofNat_inj_of_lt hs hs' hlen)
      obtain ⟨more, rfl, ht⟩ := ih (fun x hx => hss x (mem_cons_of_mem _ hx))
        (fun x hx => hstrs x (mem_cons_of_mem _ hx)) hrest
      exact ⟨more, rfl, ht⟩

theorem Tail.strings_of {tail : Tail} (hstrs : ∀ s ∈ strs, s.length < 256) (h : tail.bytes = encodeTxt strs) :
    (strs = [] ∧ tail = .done) ∨ ∃ js, strs = [] :: js ∧ tail = .zero (encodeTxt js) := by
  cases strs with
  | nil =>
    cases tail with
    | done => exact .inl ⟨rfl, rfl⟩
    | zero more => cases h
    | cut len text hcut => cases h
  | cons s strs =>
    have hs := hstrs s (mem_cons_self ..)
    rw [encodeTxt_cons, dnamePutLabel, cons_append] at h
    cases tail with
    | done => cases h
    | zero more =>
      obtain ⟨hlen, rfl⟩ := List.cons.inj h
      obtain rfl := eq_nil_of_length_eq_zero (ofNat_inj_of_lt (show 0 < 256 by decide) hs hlen).symm
      exact .inr ⟨strs, rfl, rfl⟩
    | cut len text hcut =>
      obtain ⟨rfl, rfl⟩ := List.cons.inj h
      rw [toNat_ofNat_lt hs, length_append] at hcut
      omega

end record

section spec

def join (ss : List (List UInt8)) : List UInt8 := [colon].intercalate ss

def terminated (ss : List (List UInt8)) : List UInt8 := ss.flatMap (· ++ [colon])

/-- The strings that are kept, from left to right, in a text of at most `cap` bytes: `used` is
what is taken so far, with the colon before the next string. -/
def keptStrings (cap : Nat) : Nat → List (List UInt8) → List (List UInt8)
  | _, [] => []
  | used, s :: ss =>
    if used + s.length ≤ cap then s :: keptStrings cap (used + s.length + 1) ss else keptStrings cap used ss

/-- The strings that are short enough for the bytes that are left, where the colons are free. -/
def taken : Nat → List (List UInt8) → List (List UInt8)
  | _, [] => []
  | room, s :: ss => if s.length ≤ room then s :: taken (room - s.length) ss else taken room ss

/-- The strings taken up to the first one that leaves at most one byte, if there is such a one. -/
def fill : Nat → List (List UInt8) → Option (List (List UInt8))
  | _, [] => none
  | room, s :: ss =>
    if s.length ≤ room then
      if room - s.length ≤ 1 then some [s] else (fill (room - s.length) ss).map (s :: ·)
    else fill room ss

variable {s : List UInt8} {ss ts kept : List (List UInt8)} {cap used room : Nat}

theorem join_singleton (s : List UInt8) : join [s] = s := by simp [join]

theorem join_cons (h : ts ≠ []) : join (s :: ts) = s ++ colon :: join ts := by
  cases ts with
  | nil => exact absurd rfl h
  | cons t ts => simp [join, intercalate_cons_cons]

theorem join_append (h : ts ≠ []) : join (ss ++ ts) = terminated ss ++ join ts := by
  induction ss with
  | nil => rfl
  | cons s ss ih =>
    rw [cons_append, join_cons (append_ne_nil_of_right_ne_nil ss h), ih]
    simp [terminated]

theorem length_terminated (ss : List (List UInt8)) : (terminated ss).length = (encodeTxt ss).length := by
  induction ss with
  | nil => rfl
  | cons s ss ih =>
    rw [length_encodeTxt_cons, ← ih]
    show ((s ++ [colon]) ++ terminated ss).length = _
    simp only [length_append, length_singleton]

theorem length_join (h : ss ≠ []) : (join ss).length + 1 = (encodeTxt ss).length := by
  induction ss with
  | nil => exact absurd rfl h
  | cons s ss ih =>
    rw [length_encodeTxt_cons]
    by_cases hs : ss = []
    · subst hs
      simp [join_singleton]
    · rw [join_cons hs, length_append, length_cons, ← ih hs]
      omega

theorem taken_length_le (room : Nat) (ss : List (List UInt8)) : (taken room ss).length ≤ ss.length := by
  induction ss generalizing room with
  | nil => exact Nat.le_refl 0
  | cons s ss ih =>
    unfold taken
    split
    · exact Nat.succ_le_succ (ih _)
    · exact Nat.le_succ_of_le (ih _)

theorem taken_eq_self (h : (encodeTxt ss).length ≤ room + 1) : taken room ss = ss := by
  induction ss generalizing room with
  | nil => rfl
  | cons s ss ih =>
    rw [length_encodeTxt_cons] at h
    rw [taken, if_pos (by omega), ih (by omega)]

theorem fill_ne_nil (h : fill room ss = some kept) : kept ≠ [] := by
  induction ss generalizing room kept with
  | nil => cases h
  | cons s ss ih =>
    unfold fill at h
    split at h
    · split at h
      · cases h
        exact cons_ne_nil _ _
      · obtain ⟨kept', -, rfl⟩ := map_eq_some_iff.mp h
        exact cons_ne_nil _ _
    · exact ih h

theorem keptStrings_eq_self (h : used + (encodeTxt ss).length ≤ cap + 1) : keptStrings cap used ss = ss := by
  induction ss generalizing used with
  | nil => rfl
  | cons s ss ih =>
    rw [length_encodeTxt_cons] at h
    rw [keptStrings, if_pos (by omega), ih (by omega)]

theorem keptStrings_eq_nil : keptStrings cap used ss = [] ↔ ∀ s ∈ ss, cap < used + s.length := by
  induction ss with
  | nil => simp [keptStrings]
  | cons s ss ih =>
    unfold keptStrings
    split
    · next hfit =>
      simp only [cons_ne_nil, false_iff]
      intro h
      have := h s (mem_cons_self ..)
      omega
    · next hfit => simp [ih, Nat.not_le.mp hfit]

theorem keptStrings_skip (h : ∀ s ∈ ss, cap < used + s.length) :
    keptStrings cap used (ss ++ ts) = keptStrings cap used ts := by
  induction ss with
  | nil => rfl
  | cons s ss ih =>
    have hs := h s (mem_cons_self ..)
    rw [cons_append, keptStrings, if_neg (by omega), ih (fun x hx => h x (mem_cons_of_mem s hx))]

theorem keptStrings_taken (hroom : cap ≤ used + room) (h : used + (encodeTxt (taken room ss)).length ≤ cap) :
    keptStrings cap used (ss ++ ts) = taken room ss ++
      keptStrings cap (used + (encodeTxt (taken room ss)).length) ts := by
  induction ss generalizing used room with
  | nil => rfl
  | cons s ss ih =>
    unfold taken at h ⊢
    split at h
    · next hs =>
      rw [length_encodeTxt_cons] at h
      have hih := ih (show cap ≤ used + s.length + 1 + (room - s.length) by omega) (by omega)
      rw [cons_append, keptStrings, if_pos (by omega), if_pos hs, hih, length_encodeTxt_cons, cons_append]
      congr 3
      omega
    · next hs => rw [cons_append, keptStrings, if_neg (by omega), if_neg hs, ih hroom h]

theorem keptStrings_fill (hss : ∀ s ∈ ss, 0 < s.length) (hroom : cap ≤ used + room) (hfill : fill room ss = some kept)
    (h : used + (encodeTxt kept).length ≤ cap + 1) :
    keptStrings cap used (ss ++ ts) = kept ++ keptStrings cap (used + (encodeTxt kept).length) ts := by
  induction ss generalizing used room kept with
  | nil => cases hfill
  | cons s ss ih =>
    have hss' : ∀ x ∈ ss, 0 < x.length := fun x hx => hss x (mem_cons_of_mem s hx)
    unfold fill at hfill
    split at hfill
    · next hs =>
      split at hfill
      · next hone =>
        cases hfill
        rw [length_encodeTxt_cons, encodeTxt_nil, length_nil] at h ⊢
        rw [cons_append, keptStrings, if_pos (by omega), keptStrings_skip]
        · rfl
        · intro x hx
          have := hss' x hx
          omega
      · obtain ⟨kept', hfill', rfl⟩ := map_eq_some_iff.mp hfill
        rw [length_encodeTxt_cons] at h ⊢
        have hih := ih hss' (show cap ≤ used + s.length + 1 + (room - s.length) by omega) hfill' (by omega)
        rw [cons_append, keptStrings, if_pos (by omega), hih, cons_append]
        congr 3
        omega
    · next hs => rw [cons_append, keptStrings, if_neg (by omega), ih hss' hroom hfill h]

theorem length_fill_le (hfill : fill room ss = some kept) : (encodeTxt kept).length ≤ (encodeTxt ss).length := by
  induction ss generalizing room kept with
  | nil => cases hfill
  | cons s ss ih =>
    rw [length_encodeTxt_cons]
    unfold fill at hfill
    split at hfill
    · split at hfill
      · cases hfill
        rw [length_encodeTxt_cons, encodeTxt_nil, length_nil]
        omega
      · obtain ⟨kept', hfill', rfl⟩ := map_eq_some_iff.mp hfill
        have hle := ih hfill'
        rw [length_encodeTxt_cons]
        omega
    · have hle := ih hfill
      omega

end spec

section run
variable {p : Mem} {P : List UInt8 → Prop} {e pos skipped room : Nat} {dst : List UInt8}

/-- The end of what one round reads: the length and, if the string is copied, its text. -/
def txtReadTo (p : Mem) : Nat × Int × Int × List UInt8 → Nat
  | (txt, tlen, remaining, _) =>
    if byte p txt = 0 ∨ tlen = 0 ∨ byte p txt > remaining then txt + 1 else txt + 1 + byte p txt

/-- What the text that is written must be, from a state with `skipped` bytes too many in `tlen`. -/
def Yields (P : List UInt8 → Prop) (skipped room : Nat) (dst : List UInt8) (tail : Tail)
    (ss : List (List UInt8)) : Prop :=
  match fill room ss with
  | some kept => P (dst ++ join kept)
  | none => match tail with
    | .done => skipped = 0 ∧ ss ≠ [] ∧ taken room ss = ss ∧ P (dst ++ join ss)
    | .zero _ => P (dst ++ terminated (taken room ss))
    | .cut .. => False

section yields
variable {s : List UInt8} {ss : List (List UInt8)} {skipped room : Nat} {dst : List UInt8} {tail : Tail}

theorem yields_skip (h : room < s.length) :
    Yields P skipped room dst tail (s :: ss) ↔ Yields P (skipped + s.length + 1) room dst tail ss := by
  have hno : ¬ s.length ≤ room := by omega
  simp only [Yields, fill, taken, if_neg hno]
  cases fill room ss with
  | some kept => exact Iff.rfl
  | none =>
    cases tail with
    | done =>
      refine ⟨fun hy => ?_, fun hy => absurd hy.1 (by omega)⟩
      have hlen := taken_length_le room ss
      rw [hy.2.2.1, length_cons] at hlen
      omega
    | zero more => exact Iff.rfl
    | cut len text hcut => exact Iff.rfl

theorem yields_full (h : s.length ≤ room) (hone : room - s.length ≤ 1) :
    Yields P skipped room dst tail (s :: ss) ↔ P (dst ++ s) := by
  simp only [Yields, fill, if_pos h, if_pos hone, join_singleton]

theorem yields_last (h : s.length ≤ room) (hone : ¬ room - s.length ≤ 1) :
    Yields P 0 room dst .done [s] ↔ P (dst ++ s) := by
  simp only [Yields, fill, taken, if_pos h, if_neg hone, map_none, join_singleton]
  simp

theorem yields_copy (h : s.length ≤ room) (hone : ¬ room - s.length ≤ 1)
    (hmore : (encodeTxt ss ++ tail.bytes).length + skipped ≠ 0) :
    Yields P skipped room dst tail (s :: ss) ↔ Yields P skipped (room - s.length) (dst ++ s ++ [colon]) tail ss := by
  have hjoin : ∀ ts, ts ≠ [] → dst ++ join (s :: ts) = dst ++ s ++ [colon] ++ join ts := by
    intro ts hts
    rw [join_cons hts]
    simp
  simp only [Yields, fill, taken, if_pos h, if_neg hone]
  cases hfill : fill (room - s.length) ss with
  | some kept => simp only [map_some, hjoin kept (fill_ne_nil hfill)]
  | none =>
    simp only [map_none]
    cases tail with
    | done =>
      by_cases hss : ss = []
      · subst hss
        refine ⟨fun hy => absurd ?_ hmore, fun hy => absurd rfl hy.2.1⟩
        rw [hy.1]
        rfl
      · rw [hjoin ss hss]
        simp [hss]
    | zero more => simp [terminated]
    | cut len text hcut => exact Iff.rfl

end yields

theorem lt_txtReadTo (p : Mem) (st : Nat × Int × Int × List UInt8) : st.1 < txtReadTo p st := by
  obtain ⟨txt, tlen, remaining, dst⟩ := st
  show txt < _
  simp only [txtReadTo]
  split <;> omega

section body
variable {pos room : Nat} {t : Int} {dst : List UInt8}

theorem txtBody_skip (hz : 0 < byte p pos) (ht : t ≠ 0) (h : room < byte p pos) :
    txtBody p (pos, t, (room : Int), dst) = .inl (pos + byte p pos + 1, t, (room : Int), dst) := by
  simp only [txtBody]
  rw [if_neg (by omega), if_pos (by omega)]

theorem txtBody_stop (hz : 0 < byte p pos) (ht : t ≠ 0) (h : byte p pos ≤ room)
    (hstop : room - byte p pos ≤ 1 ∨ t = byte p pos + 1) :
    txtBody p (pos, t, (room : Int), dst) = .inr (dst ++ slice p (pos + 1) (byte p pos)) := by
  simp only [txtBody]
  rw [if_neg (by omega), if_neg (by omega), if_pos (by omega)]

theorem txtBody_copy (hz : 0 < byte p pos) (ht : t ≠ 0) (h : byte p pos ≤ room)
    (hgo : ¬ (room - byte p pos ≤ 1 ∨ t = byte p pos + 1)) :
    txtBody p (pos, t, (room : Int), dst) = .inl (pos + byte p pos + 1, t - (byte p pos + 1),
      ((room - byte p pos : Nat) : Int), dst ++ slice p (pos + 1) (byte p pos) ++ [colon]) := by
  simp only [txtBody]
  rw [if_neg (by omega), if_neg (by omega), if_neg (by omega), Int.ofNat_sub h]

theorem txtReadTo_skip (h : room < byte p pos) : txtReadTo p (pos, t, (room : Int), dst) = pos + 1 := by
  simp only [txtReadTo]
  rw [if_pos (by omega)]

theorem txtReadTo_copy (hz : 0 < byte p pos) (ht : t ≠ 0) (h : byte p pos ≤ room) :
    txtReadTo p (pos, t, (room : Int), dst) = pos + 1 + byte p pos := by
  simp only [txtReadTo]
  rw [if_neg (by omega)]

end body

theorem runsWell_tail {tail : Tail} (h : At p pos tail.bytes) (he : e = pos + tail.bytes.length) :
    RunsWell (txtBody p) (fun st => txtReadTo p st ≤ e) P (pos,
      ((tail.bytes.length + skipped : Nat) : Int), (room : Int), dst) ↔
      Yields P skipped room dst tail [] := by
  cases tail with
  | done =>
    refine ⟨fun hrun => ?_, fun hy => absurd rfl hy.2.1⟩
    have hread := hrun.2 _ .refl
    have hlt := lt_txtReadTo p (pos, (((Tail.bytes .done).length + skipped : Nat) : Int), (room : Int), dst)
    simp only [Tail.bytes, length_nil] at he hlt hread
    omega
  | zero more =>
    have hbyte : byte p pos = 0 := At.byte h
    rw [runsWell_break (a := dst) (by simp [txtBody, hbyte])]
    simp only [Yields, fill, taken, terminated, flatMap_nil, append_nil, txtReadTo, hbyte, true_or, if_true, he,
      Tail.bytes, length_cons, and_iff_right_iff_imp]
    omega
  | cut len text hcut =>
    refine ⟨fun hrun => ?_, fun hy => hy.elim⟩
    have hbyte : byte p pos = len.toNat := At.byte h
    simp only [Tail.bytes, length_cons] at he hrun
    have hread := hrun.2 _ .refl
    by_cases hskip : (len.toNat : Int) > room
    · -- the next length is looked for behind the record
      have hbody : txtBody p (pos, ((text.length + 1 + skipped : Nat) : Int), (room : Int), dst) =
          .inl (pos + len.toNat + 1, ((text.length + 1 + skipped : Nat) : Int), (room : Int), dst) := by
        simp only [txtBody, hbyte]
        rw [if_neg (by omega), if_pos hskip]
      have hnext := ((runsWell_continue hbody).mp hrun).2.2 _ .refl
      have hlt := lt_txtReadTo p (pos + len.toNat + 1, ((text.length + 1 + skipped : Nat) : Int), (room : Int), dst)
      simp only at hnext hlt
      omega
    · simp only [txtReadTo, hbyte] at hread
      rw [if_neg (by omega)] at hread
      omega

theorem runsWell_strings {tail : Tail} {ss : List (List UInt8)}
    (hss : ∀ s ∈ ss, 0 < s.length ∧ s.length < 256) (h : At p pos (encodeTxt ss ++ tail.bytes))
    (he : e = pos + (encodeTxt ss ++ tail.bytes).length) :
    RunsWell (txtBody p) (fun st => txtReadTo p st ≤ e) P
        (pos, (((encodeTxt ss ++ tail.bytes).length + skipped : Nat) : Int), (room : Int), dst) ↔
      Yields P skipped room dst tail ss := by
  induction ss generalizing pos skipped room dst with
  | nil => exact runsWell_tail h he
  | cons s ss ih =>
    obtain ⟨hpos, hlen⟩ := hss s (mem_cons_self ..)
    have hss' : ∀ x ∈ ss, 0 < x.length ∧ x.length < 256 := fun x hx => hss x (mem_cons_of_mem s hx)
    rw [encodeTxt_cons, append_assoc] at h he ⊢
    have hbyte : byte p pos = s.length := by
      rw [At.byte h, toNat_ofNat_lt hlen]
    have htext : slice p (pos + 1) s.length = s := by
      have hat : At p (pos + 1) (s ++ (encodeTxt ss ++ tail.bytes)) := @At.drop p pos [UInt8.ofNat s.length] _ h
      exact hat.take.slice
    have hnext : At p (pos + s.length + 1) (encodeTxt ss ++ tail.bytes) := by
      rw [Nat.add_assoc]
      exact h.drop
    have ht : (((dnamePutLabel s ++ (encodeTxt ss ++ tail.bytes)).length + skipped : Nat) : Int) ≠ 0 := by
      rw [length_append, length_dnamePutLabel]
      omega
    rw [length_append, length_dnamePutLabel] at he
    by_cases hfit : s.length ≤ room
    · have hread : txtReadTo p (pos, (((dnamePutLabel s ++ (encodeTxt ss ++ tail.bytes)).length + skipped : Nat) : Int),
          (room : Int), dst) ≤ e := by
        rw [txtReadTo_copy (by omega) ht (by omega)]
        omega
      by_cases hstop : room - s.length ≤ 1 ∨ (encodeTxt ss ++ tail.bytes).length + skipped = 0
      · rw [runsWell_break (txtBody_stop (by omega) ht (by omega)
          (by rw [hbyte, length_append, length_dnamePutLabel]; omega)), hbyte, htext, and_iff_right hread]
        by_cases hone : room - s.length ≤ 1
        · exact (yields_full hfit hone).symm
        · have hnil : (encodeTxt ss ++ tail.bytes).length = 0 ∧ skipped = 0 := by omega
          obtain ⟨hss0, htail0⟩ := append_eq_nil_iff.mp (eq_nil_of_length_eq_zero hnil.1)
          obtain ⟨rfl, rfl⟩ : ss = [] ∧ tail = .done := by
            constructor
            · cases ss with
              | nil => rfl
              | cons s' ss => cases hss0
            · cases tail with
              | done => rfl
              | zero more => cases htail0
              | cut len text hcut => cases htail0
          rw [hnil.2]
          exact (yields_last hfit hone).symm
      · rw [runsWell_continue (txtBody_copy (by omega) ht (by omega)
          (by rw [hbyte, length_append, length_dnamePutLabel]; omega)), hbyte, htext, and_iff_right hread]
        have hmore : (((dnamePutLabel s ++ (encodeTxt ss ++ tail.bytes)).length + skipped : Nat) : Int)
          - (s.length + 1) =
            (((encodeTxt ss ++ tail.bytes).length + skipped : Nat) : Int) := by
          rw [length_append, length_dnamePutLabel]
          omega
        rw [hmore, ih hss' hnext (by omega)]
        exact (yields_copy hfit (by omega) (by omega)).symm
    · have hread : txtReadTo p (pos, (((dnamePutLabel s ++ (encodeTxt ss ++ tail.bytes)).length + skipped : Nat) : Int),
          (room : Int), dst) ≤ e := by
        rw [txtReadTo_skip (by omega)]
        omega
      rw [runsWell_continue (txtBody_skip (by omega) ht (by omega)), hbyte, and_iff_right hread]
      have hmore : (dnamePutLabel s ++ (encodeTxt ss ++ tail.bytes)).length + skipped =
          (encodeTxt ss ++ tail.bytes).length + (skipped + s.length + 1) := by
        rw [length_append, length_dnamePutLabel]
        omega
      rw [hmore, ih hss' hnext (by omega)]
      exact (yields_skip (by omega)).symm

end run

section conversion
variable {p : Mem} {txt dlen : Nat} {bs : Mem} {r : TxtRecord}

/-- The call on the data `bs` at `txt`: it returns, having read only `bs` and written at most
`dlen` bytes with the terminating zero, and if `bs` are the strings of a record, the text is the
join of those that are kept. -/
def Converts (p : Mem) (txt : Nat) (bs : Mem) (dlen : Nat) : Prop :=
  (∃ text, Comes (fun fuel => txtToCNcpy fuel dlen p txt bs.length) (some text) ∧ text.length + 1 ≤ dlen ∧
    ∀ strs, (∀ s ∈ strs, s.length < 256) → bs = encodeTxt strs → text = join (keptStrings (dlen - 1) 0 strs)) ∧
  ∀ st, Visits (txtBody p) (txt, (bs.length : Int), (dlen : Int) - 1, []) st → txtReadTo p st ≤ txt + bs.length

def Tail.Blank (tail : Tail) : Prop :=
  ∃ js : List (List UInt8), (∀ s ∈ js, s.length < 256) ∧ tail = .zero (encodeTxt js)

/-- The records that are converted. Either some first strings leave at most one byte free and have
room for their colons, and no empty string comes later that would take the last byte; or the
whole record fits; or it ends early with an empty string, and nothing behind that would fit. -/
def TxtRecord.Fits (r : TxtRecord) (dlen : Nat) : Prop :=
  match fill (dlen - 1) r.strings with
  | some kept => (encodeTxt kept).length ≤ dlen ∧ ((encodeTxt kept).length < dlen → ¬ r.tail.Blank)
  | none => match r.tail with
    | .done => 0 < r.bytes.length ∧ r.bytes.length ≤ dlen
    | .zero more => (encodeTxt (taken (dlen - 1) r.strings)).length < dlen ∧
        ∀ js : List (List UInt8), (∀ s ∈ js, s.length < 256) → more = encodeTxt js →
          ∀ s ∈ js, dlen < (encodeTxt (taken (dlen - 1) r.strings)).length + s.length + 2
    | .cut .. => False

def RightText (bs : Mem) (dlen : Nat) (text : List UInt8) : Prop :=
  text.length + 1 ≤ dlen ∧
    ∀ strs, (∀ s ∈ strs, s.length < 256) → bs = encodeTxt strs → text = join (keptStrings (dlen - 1) 0 strs)

theorem converts_iff_yields (r : TxtRecord) (hd : 1 ≤ dlen) (h : At p txt r.bytes) :
    Converts p txt r.bytes dlen ↔ Yields (RightText r.bytes dlen) 0 (dlen - 1) [] r.tail r.strings := by
  rw [← runsWell_strings r.len h rfl]
  have hroom : (dlen : Int) - 1 = ((dlen - 1 : Nat) : Int) := by omega
  unfold Converts RunsWell RightText txtToCNcpy
  rw [hroom]
  rfl

theorem TxtRecord.strings_eq (r : TxtRecord) {strs : List (List UInt8)} (hstrs : ∀ s ∈ strs, s.length < 256)
    (h : r.bytes = encodeTxt strs) :
    (strs = r.strings ∧ r.tail = .done) ∨
      ∃ js : List (List UInt8), (∀ s ∈ js, s.length < 256) ∧ strs = r.strings ++ [] :: js ∧
        r.tail = .zero (encodeTxt js) := by
  obtain ⟨more, rfl, hmore⟩ := strings_of_encodeTxt r.len hstrs h
  rcases Tail.strings_of (fun s hs => hstrs s (mem_append_right _ hs)) hmore with ⟨rfl, htail⟩ | ⟨js, rfl, htail⟩
  · exact .inl ⟨append_nil _, htail⟩
  · exact .inr ⟨js, fun s hs => hstrs s (mem_append_right _ (mem_cons_of_mem _ hs)), rfl, htail⟩

theorem TxtRecord.len_append (r : TxtRecord) {js : List (List UInt8)} (hjs : ∀ s ∈ js, s.length < 256) :
    ∀ s ∈ r.strings ++ [] :: js, s.length < 256 := by
  intro s hs
  rcases mem_append.mp hs with hs | hs
  · exact (r.len s hs).2
  · rcases mem_cons.mp hs with rfl | hs
    · decide
    · exact hjs s hs

theorem rightText_fill {kept : List (List UInt8)} (hd : 1 ≤ dlen)
    (hfill : fill (dlen - 1) r.strings = some kept) :
    RightText r.bytes dlen (join kept) ↔
      (encodeTxt kept).length ≤ dlen ∧ ((encodeTxt kept).length < dlen → ¬ r.tail.Blank) := by
  have hne := fill_ne_nil hfill
  have hlen := length_join hne
  have hpos : ∀ s ∈ r.strings, 0 < s.length := fun s hs => (r.len s hs).1
  unfold RightText
  rw [hlen]
  refine and_congr_right fun hle => ⟨fun htext hlt => ?_, fun hblank strs hstrs hbs => ?_⟩
  · rintro ⟨js, hjs, htail⟩
    have hbytes : r.bytes = encodeTxt (r.strings ++ [] :: js) := by
      rw [TxtRecord.bytes, htail, encodeTxt_append, encodeTxt_cons]
      rfl
    have heq := htext _ (r.len_append hjs) hbytes
    rw [keptStrings_fill hpos (by omega) hfill (by omega), keptStrings, if_pos (by simp only [length_nil]; omega),
      join_append (cons_ne_nil _ _)] at heq
    have hlonger := congrArg List.length heq
    rw [length_append, length_terminated] at hlonger
    omega
  · rcases r.strings_eq hstrs hbs with ⟨rfl, -⟩ | ⟨js, hjs, rfl, htail⟩
    · have hkept : keptStrings (dlen - 1) 0 (r.strings ++ []) = _ := keptStrings_fill hpos (by omega) hfill (by omega)
      rw [append_nil] at hkept
      rw [hkept, keptStrings, append_nil]
    · have hfull : (encodeTxt kept).length = dlen := by
        by_contra hne
        exact hblank (by omega) ⟨js, hjs, htail⟩
      rw [keptStrings_fill hpos (by omega) hfill (by omega), keptStrings_eq_nil.mpr, append_nil]
      intro s hs
      omega

theorem rightText_all (htail : r.tail = .done) (hne : r.strings ≠ []) :
    RightText r.bytes dlen (join r.strings) ↔ r.bytes.length ≤ dlen := by
  have hbytes : r.bytes = encodeTxt r.strings := by
    rw [TxtRecord.bytes, htail]
    exact append_nil _
  have hlen := length_join hne
  unfold RightText
  rw [hlen, ← hbytes]
  refine and_iff_left_iff_imp.mpr fun hle strs hstrs hbs => ?_
  rcases r.strings_eq hstrs hbs with ⟨rfl, -⟩ | ⟨js, -, -, hz⟩
  · rw [hbytes] at hle
    rw [keptStrings_eq_self (by omega)]
  · rw [htail] at hz
    cases hz

theorem rightText_zero {more : Mem} (hd : 1 ≤ dlen) (htail : r.tail = .zero more) :
    RightText r.bytes dlen (terminated (taken (dlen - 1) r.strings)) ↔
      (encodeTxt (taken (dlen - 1) r.strings)).length < dlen ∧
        ∀ js : List (List UInt8), (∀ s ∈ js, s.length < 256) → more = encodeTxt js →
          ∀ s ∈ js, dlen < (encodeTxt (taken (dlen - 1) r.strings)).length + s.length + 2 := by
  unfold RightText
  rw [length_terminated, Nat.succ_le_iff]
  refine and_congr_right fun hlt => ?_
  -- the text is right exactly if nothing behind the empty string is kept
  have hstep : ∀ js : List (List UInt8), terminated (taken (dlen - 1) r.strings) =
      join (keptStrings (dlen - 1) 0 (r.strings ++ [] :: js)) ↔
        ∀ s ∈ js, dlen < (encodeTxt (taken (dlen - 1) r.strings)).length + s.length + 2 := by
    intro js
    rw [keptStrings_taken (show dlen - 1 ≤ 0 + (dlen - 1) by omega) (by omega), keptStrings,
      if_pos (by simp only [length_nil]; omega),
      join_append (cons_ne_nil _ _)]
    generalize hk : keptStrings (dlen - 1) _ js = kept
    have hnil : kept = [] ↔ ∀ s ∈ js, dlen < (encodeTxt (taken (dlen - 1) r.strings)).length + s.length + 2 := by
      rw [← hk, keptStrings_eq_nil]
      refine forall_congr' fun s => forall_congr' fun hs => ?_
      simp only [length_nil]
      omega
    rw [← hnil]
    constructor
    · intro heq
      by_contra hne
      have hlonger := congrArg List.length heq
      rw [length_append, join_cons hne, length_append, length_cons] at hlonger
      omega
    · rintro rfl
      simp [join_singleton]
  constructor
  · intro htext js hjs hmore
    refine (hstep js).mp (htext _ (r.len_append hjs) ?_)
    rw [TxtRecord.bytes, htail, encodeTxt_append, encodeTxt_cons, hmore]
    rfl
  · intro hmore strs hstrs hbs
    rcases r.strings_eq hstrs hbs with ⟨-, hz⟩ | ⟨js, hjs, rfl, hz⟩
    · rw [htail] at hz
      cases hz
    · rw [htail] at hz
      cases hz
      exact (hstep js).mpr (hmore js hjs rfl)

theorem yields_iff_fits (r : TxtRecord) (hd : 1 ≤ dlen) :
    Yields (RightText r.bytes dlen) 0 (dlen - 1) [] r.tail r.strings ↔ r.Fits dlen := by
  unfold Yields TxtRecord.Fits
  cases hfill : fill (dlen - 1) r.strings with
  | some kept => exact rightText_fill hd hfill
  | none =>
    cases htail : r.tail with
    | done =>
      have hbytes : r.bytes = encodeTxt r.strings := by
        rw [TxtRecord.bytes, htail]
        exact append_nil _
      simp only [true_and, nil_append]
      constructor
      · rintro ⟨hne, -, htext⟩
        refine ⟨?_, (rightText_all htail hne).mp htext⟩
        rw [hbytes, ← length_join hne]
        omega
      · rintro ⟨hpos, hle⟩
        have hne : r.strings ≠ [] := by
          intro hnil
          rw [hbytes, hnil] at hpos
          cases hpos
        refine ⟨hne, taken_eq_self ?_, (rightText_all htail hne).mpr hle⟩
        rw [← hbytes]
        omega
    | zero more => exact rightText_zero hd htail
    | cut len text hcut => exact Iff.rfl

/-- `txt_to_c_ncpy` does what it should exactly on the data that fits. -/
theorem txtToCNcpy_converts (p : Mem) (txt : Nat) (bs : Mem) (dlen : Nat) (hd : 1 ≤ dlen) (h : At p txt bs) :
    Converts p txt bs dlen ↔ ∃ r : TxtRecord, r.bytes = bs ∧ r.Fits dlen := by
  constructor
  · intro hc
    obtain ⟨r, rfl⟩ := exists_record bs
    exact ⟨r, rfl, (yields_iff_fits r hd).mp ((converts_iff_yields r hd h).mp hc)⟩
  · rintro ⟨r, rfl, hfits⟩
    exact (converts_iff_yields r hd h).mpr ((yields_iff_fits r hd).mpr hfits)

/-- A record with three strings in a buffer of 20 bytes. -/
theorem txtToCNcpy_converts_three :
    Converts [1, 97, 2, 98, 99, 3, 100, 101, 102] 0 [1, 97, 2, 98, 99, 3, 100, 101, 102] 20 :=
  (txtToCNcpy_converts _ 0 _ 20 (by decide) ⟨[], [], rfl, rfl⟩).mpr
    ⟨⟨[[97], [98, 99], [100, 101, 102]], .done, by decide⟩, rfl, show 0 < 9 ∧ 9 ≤ 20 by decide⟩

/-- Three strings of two bytes each in a buffer of eight: six bytes of text leave one of the seven
that are counted, so that the two colons and the zero are one byte too many. -/
theorem txtToCNcpy_overflows : ¬ Converts [2, 97, 97, 2, 98, 98, 2, 99, 99] 0 [2, 97, 97, 2, 98, 98, 2, 99, 99] 8 := by
  rintro ⟨⟨text, hcomes, hlen, -⟩, -⟩
  have hrun : Comes (fun fuel => txtToCNcpy fuel 8 [2, 97, 97, 2, 98, 98, 2, 99, 99] 0 9)
      (some [97, 97, 58, 98, 98, 58, 99, 99]) := ⟨3, fun m hm => loop_mono hm (by decide)⟩
  cases hcomes.unique hrun
  exact absurd hlen (by decide)

end conversion

end Mdns
