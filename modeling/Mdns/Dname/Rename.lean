import Mdns.Store

/-!
# Renaming

`dname_increment` on the first label of a name. It does what its comment says except on a label of
62 bytes, whose length byte it leaves alone, and on names with a zero byte, at which `strlen` stops
short.
-/
namespace Mdns
open Lib List

section labels

def lastDigit (l : List UInt8) : Option UInt8 :=
  match l.reverse with
  | d :: e :: _ => if e = dash ∧ 50 ≤ d ∧ d ≤ 57 then some d else none
  | _ => none

def nextLabel (l : List UInt8) : Option (List UInt8) :=
  match lastDigit l with
  | some d => if d = 57 then none else some (l.dropLast ++ [d + 1])
  | none => some (if l.length + 2 ≤ maxLabelLen then l ++ [dash, 50] else l.take (maxLabelLen - 2) ++ [dash, 50])

def triesLeft (l : List UInt8) : Nat :=
  match lastDigit l with
  | some d => 57 - d.toNat
  | none => 8

def labelAfter : Nat → List UInt8 → List UInt8
  | 0, l => l
  | k+1, l => match nextLabel l with
    | some l' => labelAfter k l'
    | none => l

variable {l l' stem : List UInt8} {d e : UInt8}

theorem lastDigit_append (stem : List UInt8) (e d : UInt8) :
    lastDigit (stem ++ [e, d]) = if e = dash ∧ 50 ≤ d ∧ d ≤ 57 then some d else none := by
  simp [lastDigit]

theorem label_cases (h : 0 < l.length) : (∃ d, l = [d]) ∨ ∃ stem e d, l = stem ++ [e, d] := by
  rcases eq_nil_or_concat l with rfl | ⟨front, d, rfl⟩
  · cases h
  · rcases eq_nil_or_concat front with rfl | ⟨stem, e, rfl⟩
    · exact .inl ⟨d, rfl⟩
    · exact .inr ⟨stem, e, d, by simp⟩

theorem lastDigit_eq_some (h : lastDigit l = some d) : (∃ stem, l = stem ++ [dash, d]) ∧ 50 ≤ d ∧ d ≤ 57 := by
  have hpos : 0 < l.length := by
    cases l with
    | nil => cases h
    | cons a l => exact Nat.succ_pos _
  rcases label_cases hpos with ⟨c, rfl⟩ | ⟨stem, e, c, rfl⟩
  · cases h
  · rw [lastDigit_append] at h
    split at h
    · next hc =>
      cases h
      exact ⟨⟨stem, by rw [hc.1]⟩, hc.2⟩
    · cases h

theorem triesLeft_le (l : List UInt8) : triesLeft l ≤ 8 := by
  unfold triesLeft
  cases h : lastDigit l with
  | none => exact Nat.le_refl 8
  | some d =>
    have hd : (50 : UInt8).toNat ≤ d.toNat := UInt8.le_iff_toNat_le.mp (lastDigit_eq_some h).2.1
    have h50 : (50 : UInt8).toNat = 50 := rfl
    show 57 - d.toNat ≤ 8
    omega

theorem nextLabel_eq_none : nextLabel l = none ↔ triesLeft l = 0 := by
  unfold nextLabel triesLeft
  cases h : lastDigit l with
  | none => simp
  | some d =>
    have hd : d.toNat ≤ (57 : UInt8).toNat := UInt8.le_iff_toNat_le.mp (lastDigit_eq_some h).2.2
    have h57 : (57 : UInt8).toNat = 57 := rfl
    by_cases h9 : d = 57
    · subst h9
      simp
    · have hne : d.toNat ≠ 57 := fun hc => h9 (UInt8.toNat_inj.mp hc)
      simp only [if_neg h9, reduceCtorEq, false_iff]
      omega

theorem toNat_succ (h : d ≤ 57) : (d + 1).toNat = d.toNat + 1 := by
  have hd : d.toNat ≤ (57 : UInt8).toNat := UInt8.le_iff_toNat_le.mp h
  have h57 : (57 : UInt8).toNat = 57 := rfl
  rw [UInt8.toNat_add]
  have h1 : (1 : UInt8).toNat = 1 := rfl
  omega

theorem lastDigit_next (h : nextLabel l = some l') :
    (lastDigit l = none ∧ lastDigit l' = some 50) ∨
      ∃ d, lastDigit l = some d ∧ d.toNat < 57 ∧ lastDigit l' = some (d + 1) := by
  unfold nextLabel at h
  cases hd : lastDigit l with
  | none =>
    rw [hd] at h
    cases h
    refine .inl ⟨rfl, ?_⟩
    split <;> exact lastDigit_append _ dash 50
  | some d =>
    obtain ⟨⟨stem, rfl⟩, h50, h57⟩ := lastDigit_eq_some hd
    rw [hd] at h
    simp only at h
    split at h
    · cases h
    · next h9 =>
      cases h
      have hle : d.toNat ≤ 57 := UInt8.le_iff_toNat_le.mp h57
      have hne : d.toNat ≠ 57 := fun hc => h9 (UInt8.toNat_inj.mp hc)
      have h50' : 50 ≤ d.toNat := UInt8.le_iff_toNat_le.mp h50
      have hsucc := toNat_succ h57
      refine .inr ⟨d, rfl, by omega, ?_⟩
      have hdrop : (stem ++ [dash, d]).dropLast ++ [d + 1] = stem ++ [dash, d + 1] := by simp
      rw [hdrop, lastDigit_append, if_pos]
      have h50c : (50 : UInt8).toNat = 50 := rfl
      have h57c : (57 : UInt8).toNat = 57 := rfl
      refine ⟨rfl, UInt8.le_iff_toNat_le.mpr ?_, UInt8.le_iff_toNat_le.mpr ?_⟩ <;> omega

theorem triesLeft_next (h : nextLabel l = some l') : triesLeft l' + 1 = triesLeft l := by
  unfold triesLeft
  rcases lastDigit_next h with ⟨h1, h2⟩ | ⟨d, h1, hlt, h2⟩
  · rw [h1, h2]
    rfl
  · have h57 : (57 : UInt8).toNat = 57 := rfl
    have hsucc := toNat_succ (UInt8.le_iff_toNat_le.mpr (by omega : d.toNat ≤ (57 : UInt8).toNat))
    rw [h1, h2]
    simp only
    omega

theorem nextLabel_length (h : nextLabel l = some l') (hl : 0 < l.length ∧ l.length < 64) :
    0 < l'.length ∧ l'.length < 64 := by
  unfold nextLabel at h
  split at h
  · split at h
    · cases h
    · cases h
      simp only [length_append, length_dropLast, length_singleton]
      omega
  · cases h
    unfold maxLabelLen
    split
    · simp only [length_append, length_cons, length_nil]
      omega
    · simp only [length_append, length_take, length_cons, length_nil]
      omega

theorem triesLeft_labelAfter {k : Nat} (h : k ≤ triesLeft l) : triesLeft (labelAfter k l) = triesLeft l - k := by
  induction k generalizing l with
  | zero => rfl
  | succ k ih =>
    cases hn : nextLabel l with
    | none =>
      rw [nextLabel_eq_none.mp hn] at h
      cases h
    | some l' =>
      have hl' := triesLeft_next hn
      rw [labelAfter, hn]
      show triesLeft (labelAfter k l') = _
      rw [ih (by omega)]
      omega

theorem labelAfter_injective {i j : Nat} (hi : i ≤ triesLeft l) (hj : j ≤ triesLeft l)
    (h : labelAfter i l = labelAfter j l) : i = j := by
  have h1 := triesLeft_labelAfter hi
  have h2 := triesLeft_labelAfter hj
  rw [h] at h1
  omega

end labels

section increment
variable {l : List UInt8} {rest : Labels} {t buf : Mem}

theorem exists_tail (h : At buf 0 (encodeName (l :: rest))) :
    ∃ back, buf = (UInt8.ofNat l.length :: l) ++ (encodeName rest ++ back) := by
  obtain ⟨front, back, rfl, hf⟩ := h
  obtain rfl := eq_nil_of_length_eq_zero hf
  exact ⟨back, by rw [encodeName_cons, dnamePutLabel]; simp⟩

theorem at_of_tail (l : List UInt8) (rest : Labels) (back : Mem) :
    At ((UInt8.ofNat l.length :: l) ++ (encodeName rest ++ back)) 0 (encodeName (l :: rest)) :=
  ⟨[], back, by rw [encodeName_cons, dnamePutLabel]; simp, rfl⟩

theorem byte_length (hlen : l.length < 64) (t : Mem) : byte ((UInt8.ofNat l.length :: l) ++ t) 0 = l.length := by
  show (UInt8.ofNat l.length).toNat = l.length
  exact toNat_ofNat_lt (by omega)

theorem byte_last (stem : List UInt8) (b e d : UInt8) (t : Mem) :
    byte ((b :: (stem ++ [e, d])) ++ t) (stem.length + 1) = e.toNat ∧
    byte ((b :: (stem ++ [e, d])) ++ t) (stem.length + 2) = d.toNat := by
  constructor
  · simp [byte, getD_eq_getElem?_getD]
  · have h : stem.length + 2 = (b :: (stem ++ [e])).length := by simp
    have hlist : (b :: (stem ++ [e, d])) ++ t = (b :: (stem ++ [e])) ++ d :: t := by simp
    rw [hlist, h]
    simp [byte, getD_eq_getElem?_getD]

theorem lastDigit_iff (hpos : 0 < l.length) (hlen : l.length < 64) (t : Mem) :
    (∀ d, lastDigit l = some d → byte ((UInt8.ofNat l.length :: l) ++ t) (l.length - 1) = 45 ∧
      byte ((UInt8.ofNat l.length :: l) ++ t) l.length = d.toNat) ∧
    (lastDigit l = none → ¬ (byte ((UInt8.ofNat l.length :: l) ++ t) (l.length - 1) = 45 ∧
      50 ≤ byte ((UInt8.ofNat l.length :: l) ++ t) l.length ∧
        byte ((UInt8.ofNat l.length :: l) ++ t) l.length ≤ 57)) := by
  rcases label_cases hpos with ⟨c, rfl⟩ | ⟨stem, e, c, rfl⟩
  · refine ⟨nofun, fun _ h => ?_⟩
    have h0 : byte ([UInt8.ofNat [c].length, c] ++ t) ([c].length - 1) = 1 := rfl
    rw [h0] at h
    cases h.1
  · obtain ⟨h1, h2⟩ := byte_last stem (UInt8.ofNat (stem ++ [e, c]).length) e c t
    have hlen1 : (stem ++ [e, c]).length - 1 = stem.length + 1 := by simp
    have hlen2 : (stem ++ [e, c]).length = stem.length + 2 := by simp
    rw [hlen1, h1]
    rw [show byte ((UInt8.ofNat (stem ++ [e, c]).length :: (stem ++ [e, c])) ++ t)
      (stem ++ [e, c]).length = c.toNat from
      hlen2 ▸ h2]
    refine ⟨fun d hd => ?_, fun hnone h => ?_⟩
    · rw [lastDigit_append] at hd
      split at hd
      · next hc =>
        cases hd
        rw [hc.1]
        exact ⟨rfl, rfl⟩
      · cases hd
    · rw [lastDigit_append, if_pos] at hnone
      · cases hnone
      · refine ⟨UInt8.toNat_inj.mp h.1, UInt8.le_iff_toNat_le.mpr h.2.1, UInt8.le_iff_toNat_le.mpr h.2.2⟩

theorem dnameIncrement_digit {d : UInt8} (hpos : 0 < l.length) (hlen : l.length < 64)
    (h : lastDigit l = some d) (t : Mem) :
    dnameIncrement ((UInt8.ofNat l.length :: l) ++ t) =
      if d = 57 then some ((UInt8.ofNat l.length :: l) ++ t, -1)
      else some ((UInt8.ofNat l.length :: (l.dropLast ++ [d + 1])) ++ t, 0) := by
  obtain ⟨h1, h2⟩ := (lastDigit_iff hpos hlen t).1 d h
  obtain ⟨⟨stem, rfl⟩, h50, h57⟩ := lastDigit_eq_some h
  have h50 : 50 ≤ d.toNat := UInt8.le_iff_toNat_le.mp h50
  have h57' : d.toNat ≤ 57 := UInt8.le_iff_toNat_le.mp h57
  unfold dnameIncrement
  simp only [byte_length hlen t, h1, h2, true_and]
  by_cases h9 : d = 57
  · rw [if_pos h9]
    subst h9
    rfl
  · have hne : d.toNat ≠ 57 := fun hc => h9 (UInt8.toNat_inj.mp hc)
    rw [if_pos (show 50 ≤ d.toNat ∧ d.toNat < 57 by omega), if_neg h9]
    -- the digit is the last byte before the tail
    have hlist : (UInt8.ofNat (stem ++ [dash, d]).length :: (stem ++ [dash, d])) ++ t =
        (UInt8.ofNat (stem ++ [dash, d]).length :: (stem ++ [dash])) ++ (d :: t) := by simp
    have hat : (stem ++ [dash, d]).length =
      (UInt8.ofNat (stem ++ [dash, d]).length :: (stem ++ [dash])).length := by simp
    have hsucc : UInt8.ofNat (d.toNat + 1) = d + 1 := by
      rw [← toNat_succ h57, UInt8.ofNat_toNat]
    rw [hlist, hsucc]
    nth_rewrite 2 [hat]
    rw [writeAt_length]
    simp

theorem dnameIncrement_long (hpos : 0 < l.length) (hlen : l.length < 64) (h : lastDigit l = none)
    (hlong : 61 < l.length) (t : Mem) :
    dnameIncrement ((UInt8.ofNat l.length :: l) ++ t) =
      some (writeAt ((UInt8.ofNat l.length :: l) ++ t) (maxLabelLen - 1) [dash, 50], 0) := by
  have hno := (lastDigit_iff hpos hlen t).2 h
  unfold dnameIncrement
  simp only [byte_length hlen t]
  rw [if_neg (fun hc => hno ⟨hc.1, hc.2.1, by omega⟩), if_neg (fun hc => hno ⟨hc.1, by omega, by omega⟩),
    if_pos (by unfold maxLabelLen; omega)]

def lengthened (l : List UInt8) (t : Mem) : Mem := (UInt8.ofNat (l.length + 2) :: l) ++ t

/-- What the branch that appends leaves, with `size` bytes moved. -/
def appended (l : List UInt8) (t : Mem) (size : Nat) : Mem :=
  writeAt (writeAt (lengthened l t) (l.length + 3) (slice (lengthened l t) (l.length + 1) size))
    (l.length + 1) [dash, 50]

theorem dnameIncrement_short (hpos : 0 < l.length) (hshort : l.length ≤ 61) (h : lastDigit l = none) (t : Mem) :
    dnameIncrement ((UInt8.ofNat l.length :: l) ++ t) =
      if strlen (lengthened l t) < l.length then none
      else some (appended l t (strlen (lengthened l t) - l.length), 0) := by
  have hlen : l.length < 64 := by omega
  have hno := (lastDigit_iff hpos hlen t).2 h
  have hset : writeAt ((UInt8.ofNat l.length :: l) ++ t) 0 [UInt8.ofNat (l.length + 2)] = lengthened l t := rfl
  unfold dnameIncrement
  simp only [byte_length hlen t, hset]
  rw [if_neg (fun hc => hno ⟨hc.1, hc.2.1, by omega⟩), if_neg (fun hc => hno ⟨hc.1, by omega, by omega⟩),
    if_neg (by unfold maxLabelLen; omega)]
  rfl

theorem appended_eq (l : List UInt8) (tail spare : Mem) (hspare : 2 ≤ spare.length) :
    ∃ back, back.length + 2 = spare.length ∧
      appended l (tail ++ spare) tail.length = (UInt8.ofNat (l.length + 2) :: (l ++ [dash, 50])) ++ (tail ++ back) := by
  have hslice : slice (lengthened l (tail ++ spare)) (l.length + 1) tail.length = tail := by
    have hat : At (lengthened l (tail ++ spare)) (l.length + 1) tail :=
      ⟨UInt8.ofNat (l.length + 2) :: l, spare, by simp [lengthened], by simp⟩
    exact hat.slice
  have hsplit : lengthened l (tail ++ spare) =
      ((UInt8.ofNat (l.length + 2) :: l) ++ (tail ++ spare).take 2) ++ (tail ++ spare).drop 2 := by
    rw [append_assoc, take_append_drop]
    rfl
  have htwo : ((tail ++ spare).take 2).length = 2 := by
    rw [length_take, length_append]
    omega
  have hfront : l.length + 3 = ((UInt8.ofNat (l.length + 2) :: l) ++ (tail ++ spare).take 2).length := by
    rw [length_append, htwo, length_cons]
  refine ⟨((tail ++ spare).drop 2).drop tail.length, ?_, ?_⟩
  · simp only [length_drop, length_append]
    omega
  · rw [appended, hslice, hsplit]
    rw [hfront, writeAt_length]
    have hlast : l.length + 1 = (UInt8.ofNat (l.length + 2) :: l).length := by simp
    rw [hlast, append_assoc, append_assoc, writeAt_length]
    have hdrop : List.drop 2 ((tail ++ spare).take 2 ++ (tail ++ ((tail ++ spare).drop 2).drop tail.length)) =
        tail ++ ((tail ++ spare).drop 2).drop tail.length := by
      rw [drop_append_of_le_length (by omega), drop_eq_nil_of_le (by omega), nil_append]
    simp only [length_cons, length_nil, Nat.zero_add, Nat.reduceAdd, hdrop]
    simp

end increment

section strlen

theorem strlen_le {s : Mem} {i : Nat} (h : byte s i = 0) : strlen s ≤ i := by
  induction s generalizing i with
  | nil => exact Nat.zero_le i
  | cons a s ih =>
    unfold strlen
    by_cases ha : a = 0
    · simp [ha]
    · cases i with
      | zero => exact absurd (UInt8.toNat_inj.mp (show a.toNat = (0 : UInt8).toNat from h)) ha
      | succ i =>
        have hs := ih (i := i) h
        unfold strlen at hs
        simpa [ha] using hs

theorem strlen_lt_of_mem {s : Mem} (h : (0 : UInt8) ∈ s) (t : Mem) : strlen (s ++ t) < s.length := by
  obtain ⟨i, hi, heq⟩ := getElem_of_mem h
  have hbyte : byte (s ++ t) i = 0 := by
    simp [byte, getD_eq_getElem?_getD, getElem?_append_left hi, getElem?_eq_getElem hi, heq]
  exact Nat.lt_of_le_of_lt (strlen_le hbyte) hi

theorem strlen_append {s : Mem} (h : (0 : UInt8) ∉ s) (t : Mem) : strlen (s ++ 0 :: t) = s.length := by
  have hall : ∀ a ∈ s, decide (a ≠ 0) = true := fun a ha => decide_eq_true (fun h0 => h (h0 ▸ ha))
  unfold strlen
  rw [takeWhile_append_of_pos hall]
  simp

end strlen

section outcome
variable {l : List UInt8} {rest : Labels} {buf : Mem}

/-- The call does what it should to a name in a buffer: it fails and changes nothing after the
last try, and else gives the name its next label. -/
def Increments (buf : Mem) (l : List UInt8) (rest : Labels) : Prop :=
  match nextLabel l with
  | none => dnameIncrement buf = some (buf, -1)
  | some l' =>
    ∃ buf', dnameIncrement buf = some (buf', 0) ∧ buf'.length = buf.length ∧ At buf' 0 (encodeName (l' :: rest))

def incrementTimes : Nat → Mem → Option Mem
  | 0, buf => some buf
  | k+1, buf => match dnameIncrement buf with
    | some (buf', 0) => incrementTimes k buf'
    | _ => none

/-- Calls in a row give pairwise distinct names until one fails, after at most eight. -/
def RunsOutOfNames (buf : Mem) (l : List UInt8) (rest : Labels) : Prop :=
  ∃ k ≤ 8, ∃ label : Nat → List UInt8, label 0 = l ∧ (∀ i ≤ k, ∀ j ≤ k, label i = label j → i = j) ∧
    (∀ i ≤ k, ∃ buf', incrementTimes i buf = some buf' ∧ At buf' 0 (encodeName (label i :: rest))) ∧
    ∃ last, incrementTimes k buf = some last ∧ dnameIncrement last = some (last, -1)

/-- The names on which `dname_increment` is right: the first label ends in a digit that counts, or
has all of its 63 bytes, or has room for the suffix and no label has a zero byte. -/
def Renamable (l : List UInt8) (rest : Labels) : Prop :=
  lastDigit l ≠ none ∨ l.length = 63 ∨ (l.length ≤ 61 ∧ ∀ x ∈ l :: rest, (0 : UInt8) ∉ x)

theorem increments_of_none (hn : nextLabel l = none) (h : dnameIncrement buf = some (buf, -1)) :
    Increments buf l rest := by
  unfold Increments
  rwa [hn]

theorem increments_of_some {l' : List UInt8} {buf' : Mem} (hn : nextLabel l = some l')
    (h : dnameIncrement buf = some (buf', 0)) (hlen : buf'.length = buf.length)
    (hat : At buf' 0 (encodeName (l' :: rest))) : Increments buf l rest := by
  unfold Increments
  rw [hn]
  exact ⟨buf', h, hlen, hat⟩

theorem increments_digit {d : UInt8} (hpos : 0 < l.length) (hlen : l.length < 64) (hd : lastDigit l = some d)
    (h : At buf 0 (encodeName (l :: rest))) : Increments buf l rest := by
  obtain ⟨back, rfl⟩ := exists_tail h
  have heq := dnameIncrement_digit hpos hlen hd (encodeName rest ++ back)
  by_cases h9 : d = 57
  · rw [if_pos h9] at heq
    exact increments_of_none (by simp only [nextLabel, hd, if_pos h9]) heq
  · rw [if_neg h9] at heq
    have hsame : (l.dropLast ++ [d + 1]).length = l.length := by
      rw [length_append, length_dropLast, length_singleton]
      omega
    have hnext : nextLabel l = some (l.dropLast ++ [d + 1]) := by simp only [nextLabel, hd, if_neg h9]
    refine increments_of_some hnext heq ?_ ?_
    · simp only [length_append, length_cons] at hsame ⊢
      omega
    · rw [← hsame]
      exact at_of_tail _ rest back

theorem increments_full (hlen : l.length = 63) (hd : lastDigit l = none) (h : At buf 0 (encodeName (l :: rest))) :
    Increments buf l rest := by
  obtain ⟨back, rfl⟩ := exists_tail h
  have heq := dnameIncrement_long (by omega) (by omega) hd (by omega) (encodeName rest ++ back)
  have htake : (l.take 61).length = 61 := by
    rw [length_take]
    omega
  have hdrop : (l.drop 61).length = 2 := by
    rw [length_drop]
    omega
  have hnext : nextLabel l = some (l.take 61 ++ [dash, 50]) := by
    simp only [nextLabel, hd, hlen, maxLabelLen]
    rfl
  have hnew : (l.take 61 ++ [dash, 50]).length = l.length := by
    rw [length_append, htake, hlen]
    rfl
  -- the last two bytes of the label are replaced
  have hsplit : (UInt8.ofNat l.length :: l) ++ (encodeName rest ++ back) =
      (UInt8.ofNat l.length :: l.take 61) ++ (l.drop 61 ++ (encodeName rest ++ back)) := by
    rw [cons_append, cons_append, ← append_assoc (l.take 61), take_append_drop]
  have hfront : maxLabelLen - 1 = (UInt8.ofNat l.length :: l.take 61).length := by
    rw [length_cons, htake]
    rfl
  have hbuf : writeAt ((UInt8.ofNat l.length :: l) ++ (encodeName rest ++ back)) (maxLabelLen - 1) [dash, 50] =
      (UInt8.ofNat (l.take 61 ++ [dash, 50]).length :: (l.take 61 ++ [dash, 50])) ++ (encodeName rest ++ back) := by
    rw [hnew, hsplit, hfront, writeAt_length]
    have htail : List.drop [dash, 50].length (l.drop 61 ++ (encodeName rest ++ back)) = encodeName rest ++ back := by
      rw [show [dash, 50].length = (l.drop 61).length from hdrop.symm, drop_left]
    rw [htail]
    simp
  rw [hbuf] at heq
  refine increments_of_some hnext heq ?_ (at_of_tail _ rest back)
  simp only [length_append, length_cons] at hnew ⊢
  omega

theorem strlen_lengthened {back : Mem} (hpos : 0 < l.length) (hshort : l.length ≤ 61)
    (hrest : ∀ x ∈ rest, 0 < x.length ∧ x.length < 64) (hzero : ∀ x ∈ l :: rest, (0 : UInt8) ∉ x) :
    strlen (lengthened l (encodeName rest ++ back)) = l.length + (encodeName rest).length := by
  have hlenByte : ∀ k, 0 < k → k < 64 → (0 : UInt8) ≠ UInt8.ofNat k := by
    intro k h0 h64 hc
    have := congrArg UInt8.toNat hc
    rw [toNat_ofNat_lt (by omega)] at this
    have h00 : (0 : UInt8).toNat = 0 := rfl
    omega
  have hnot : (0 : UInt8) ∉ (UInt8.ofNat (l.length + 2) :: l) ++ rest.flatMap dnamePutLabel := by
    intro hmem
    rcases mem_append.mp hmem with hmem | hmem
    · rcases mem_cons.mp hmem with h0 | hmem
      · exact hlenByte _ (by omega) (by omega) h0
      · exact hzero l (mem_cons_self ..) hmem
    · obtain ⟨x, hx, hmem⟩ := mem_flatMap.mp hmem
      obtain ⟨h0, h64⟩ := hrest x hx
      rcases mem_cons.mp hmem with h0' | hmem
      · exact hlenByte _ h0 h64 h0'
      · exact hzero x (mem_cons_of_mem l hx) hmem
  have hlist : lengthened l (encodeName rest ++ back) =
      ((UInt8.ofNat (l.length + 2) :: l) ++ rest.flatMap dnamePutLabel) ++ 0 :: back := by
    simp [lengthened, encodeName]
  rw [hlist, strlen_append hnot]
  simp only [encodeName, length_append, length_cons, length_nil]
  omega

theorem increments_short (hpos : 0 < l.length) (hshort : l.length ≤ 61) (hd : lastDigit l = none)
    (hrest : ∀ x ∈ rest, 0 < x.length ∧ x.length < 64) (hzero : ∀ x ∈ l :: rest, (0 : UInt8) ∉ x)
    (h : At buf 0 (encodeName (l :: rest))) (hroom : (encodeName (l :: rest)).length + 2 ≤ buf.length) :
    Increments buf l rest := by
  obtain ⟨back, rfl⟩ := exists_tail h
  have hspare : 2 ≤ back.length := by
    simp only [encodeName_cons, dnamePutLabel, length_append, length_cons] at hroom
    omega
  have heq := dnameIncrement_short hpos hshort hd (encodeName rest ++ back)
  rw [strlen_lengthened hpos hshort hrest hzero, if_neg (by omega), Nat.add_sub_cancel_left] at heq
  obtain ⟨back', hback, happ⟩ := appended_eq l (encodeName rest) back hspare
  have hnew : (l ++ [dash, 50]).length = l.length + 2 := by simp
  rw [happ, ← hnew] at heq
  refine increments_of_some ?_ heq ?_ (at_of_tail _ rest back')
  · simp only [nextLabel, hd, if_pos (show l.length + 2 ≤ maxLabelLen by unfold maxLabelLen; omega)]
  · simp only [length_append, length_cons, length_nil]
    omega

theorem Renamable.increments (hr : Renamable l rest) (hl : 0 < l.length ∧ l.length < 64)
    (hrest : ∀ x ∈ rest, 0 < x.length ∧ x.length < 64) (h : At buf 0 (encodeName (l :: rest)))
    (hroom : (encodeName (l :: rest)).length + 2 ≤ buf.length) : Increments buf l rest := by
  cases hd : lastDigit l with
  | some d => exact increments_digit hl.1 hl.2 hd h
  | none =>
    rcases hr with hne | h63 | ⟨hshort, hzero⟩
    · exact absurd hd hne
    · exact increments_full h63 hd h
    · exact increments_short hl.1 hshort hd hrest hzero h hroom

theorem Increments.times (hinc : Increments buf l rest) (hl : 0 < l.length ∧ l.length < 64)
    (h : At buf 0 (encodeName (l :: rest))) {i : Nat} (hi : i ≤ triesLeft l) :
    ∃ buf', incrementTimes i buf = some buf' ∧ At buf' 0 (encodeName (labelAfter i l :: rest)) ∧
      Increments buf' (labelAfter i l) rest := by
  induction i generalizing buf l with
  | zero => exact ⟨buf, rfl, h, hinc⟩
  | succ i ih =>
    cases hn : nextLabel l with
    | none =>
      rw [nextLabel_eq_none.mp hn] at hi
      cases hi
    | some l' =>
      have htries := triesLeft_next hn
      have hl' := nextLabel_length hn hl
      obtain ⟨d, hd⟩ : ∃ d, lastDigit l' = some d := by
        rcases lastDigit_next hn with ⟨-, h2⟩ | ⟨d, -, -, h2⟩
        · exact ⟨_, h2⟩
        · exact ⟨_, h2⟩
      unfold Increments at hinc
      rw [hn] at hinc
      obtain ⟨buf', heq, -, hat⟩ := hinc
      obtain ⟨last, hlast⟩ := ih (increments_digit hl'.1 hl'.2 hd hat) hl' hat (by omega)
      refine ⟨last, ?_⟩
      rw [incrementTimes, heq, labelAfter, hn]
      exact hlast

theorem Increments.runsOutOfNames (hinc : Increments buf l rest) (hl : 0 < l.length ∧ l.length < 64)
    (h : At buf 0 (encodeName (l :: rest))) : RunsOutOfNames buf l rest := by
  refine ⟨triesLeft l, triesLeft_le l, fun i => labelAfter i l, rfl, ?_, ?_, ?_⟩
  · intro i hi j hj heq
    exact labelAfter_injective hi hj heq
  · intro i hi
    obtain ⟨buf', htimes, hat, -⟩ := hinc.times hl h hi
    exact ⟨buf', htimes, hat⟩
  · obtain ⟨last, htimes, -, hlast⟩ := hinc.times hl h (Nat.le_refl _)
    have hnone : nextLabel (labelAfter (triesLeft l) l) = none := by
      rw [nextLabel_eq_none, triesLeft_labelAfter (Nat.le_refl _), Nat.sub_self]
    unfold Increments at hlast
    rw [hnone] at hlast
    exact ⟨last, htimes, hlast⟩

theorem not_increments_62 (hlen : l.length = 62) (hd : lastDigit l = none) (back : Mem) :
    ¬ Increments ((UInt8.ofNat l.length :: l) ++ (encodeName rest ++ back)) l rest := by
  intro hinc
  have hnext : nextLabel l = some (l.take 61 ++ [dash, 50]) := by
    simp only [nextLabel, hd, hlen, maxLabelLen]
    rfl
  have hnew : (l.take 61 ++ [dash, 50]).length = 63 := by
    rw [length_append, length_take, hlen]
    rfl
  unfold Increments at hinc
  rw [hnext] at hinc
  obtain ⟨buf', heq, -, hat⟩ := hinc
  rw [dnameIncrement_long (by omega) (by omega) hd (by omega)] at heq
  cases heq
  have hbyte := At.byte hat
  rw [byte_writeAt_before (show 0 < maxLabelLen - 1 by decide) ?_, byte_length (by omega), hnew,
    toNat_ofNat_lt (by omega)] at hbyte
  · omega
  · simp only [length_append, length_cons, maxLabelLen]
    omega

theorem byte_appended {t : Mem} {size i : Nat} (hi : l.length + 3 + size ≤ i)
    (hlen : l.length + 3 + size ≤ (lengthened l t).length) : byte (appended l t size) i = byte (lengthened l t) i := by
  have hmoved : l.length + 3 + (slice (lengthened l t) (l.length + 1) size).length = l.length + 3 + size := by
    rw [slice_length]
  rw [appended, byte_writeAt_after, byte_writeAt_after]
  · omega
  · omega
  · simp only [length_cons, length_nil]
    omega
  · rw [length_writeAt (by omega)]
    omega

theorem not_increments_zero (hpos : 0 < l.length) (hshort : l.length ≤ 61) (hd : lastDigit l = none)
    (hzero : ∃ x ∈ l :: rest, (0 : UInt8) ∈ x) :
    ¬ Increments ((UInt8.ofNat l.length :: l) ++ (encodeName rest ++ [1, 1])) l rest := by
  intro hinc
  have hnext : nextLabel l = some (l ++ [dash, 50]) := by
    simp only [nextLabel, hd, if_pos (show l.length + 2 ≤ maxLabelLen by unfold maxLabelLen; omega)]
  generalize hbody : rest.flatMap dnamePutLabel = body at *
  have hlist : lengthened l (encodeName rest ++ [1, 1]) = ((UInt8.ofNat (l.length + 2) :: l) ++ body) ++ [0, 1, 1] := by
    simp [lengthened, encodeName, hbody]
  have hmem : (0 : UInt8) ∈ (UInt8.ofNat (l.length + 2) :: l) ++ body := by
    obtain ⟨x, hx, h0⟩ := hzero
    rcases mem_cons.mp hx with rfl | hx
    · exact mem_append_left _ (mem_cons_of_mem _ h0)
    · rw [← hbody]
      exact mem_append_right _ (mem_flatMap.mpr ⟨x, hx, mem_cons_of_mem _ h0⟩)
  have hstrlen := strlen_lt_of_mem hmem [0, 1, 1]
  rw [← hlist] at hstrlen
  simp only [length_append, length_cons] at hstrlen
  unfold Increments at hinc
  rw [hnext] at hinc
  obtain ⟨buf', heq, -, hat⟩ := hinc
  rw [dnameIncrement_short hpos hshort hd] at heq
  split at heq
  · cases heq
  · next hlt =>
    cases heq
    have hsame : encodeName ((l ++ [dash, 50]) :: rest) =
        ((UInt8.ofNat (l.length + 2) :: (l ++ [dash, 50])) ++ body) ++ [0] := by
      simp [encodeName, dnamePutLabel, hbody]
    rw [hsame] at hat
    have hend := (At.drop hat).byte
    -- the byte where the name should end keeps the value of the spare byte
    have hspare : At (lengthened l (encodeName rest ++ [1, 1])) (l.length + 3 + body.length) [1] :=
      ⟨((UInt8.ofNat (l.length + 2) :: l) ++ body) ++ [0, 1], [], by rw [hlist]; simp, by simp; omega⟩
    have hlen := hspare.length_le
    have hpos' : 0 + ((UInt8.ofNat (l.length + 2) :: (l ++ [dash, 50])) ++ body).length =
      l.length + 3 + body.length := by
      simp only [length_append, length_cons, length_nil]
      omega
    rw [hpos', byte_appended (by omega) (by omega), hspare.byte] at hend
    cases hend

/-- `dname_increment` renames as it should, and runs out of names after at most eight calls, for
every buffer with the name and two spare bytes, exactly if the name is renamable. -/
theorem dnameIncrement_renames (l : List UInt8) (rest : Labels) (hl : 0 < l.length ∧ l.length < 64)
    (hrest : ∀ x ∈ rest, 0 < x.length ∧ x.length < 64) :
    (∀ buf, At buf 0 (encodeName (l :: rest)) → (encodeName (l :: rest)).length + 2 ≤ buf.length →
      Increments buf l rest ∧ RunsOutOfNames buf l rest) ↔ Renamable l rest := by
  constructor
  · intro h
    have hinc : Increments ((UInt8.ofNat l.length :: l) ++ (encodeName rest ++ [1, 1])) l rest := by
      refine (h _ (at_of_tail l rest [1, 1]) ?_).1
      simp only [encodeName_cons, dnamePutLabel, length_append, length_cons, length_nil]
      omega
    by_contra hno
    unfold Renamable at hno
    rw [not_or, not_or, not_ne_iff] at hno
    obtain ⟨hd, h63, hbad⟩ := hno
    by_cases h62 : l.length = 62
    · exact not_increments_62 h62 hd _ hinc
    · refine not_increments_zero hl.1 (by omega) hd ?_ hinc
      by_contra hzero
      push Not at hzero
      exact hbad ⟨by omega, hzero⟩
  · intro hr buf hat hroom
    have hinc := hr.increments hl hrest hat hroom
    exact ⟨hinc, hinc.runsOutOfNames hl hat⟩

/-- A host called `foo` in the domain `local`. -/
theorem dnameIncrement_renames_foo :
    Increments (encodeName [[102, 111, 111], [108, 111, 99, 97, 108]] ++ [0, 0]) [102, 111,
      111] [[108, 111, 99, 97, 108]] ∧
      RunsOutOfNames (encodeName [[102, 111, 111], [108, 111, 99, 97, 108]] ++ [0, 0]) [102, 111, 111]
        [[108, 111, 99, 97, 108]] :=
  (dnameIncrement_renames [102, 111, 111] [[108, 111, 99, 97, 108]] (by decide) (by decide)).mpr
    (.inr (.inr (by decide))) _ ⟨[], [0, 0], rfl, rfl⟩ (by decide)

/-- A first label of 62 bytes keeps its length byte, so that the new label has lost its `2`. -/
theorem dnameIncrement_label_of_62 : ¬ Increments
    (encodeName [replicate 62 97, [108, 111, 99, 97, 108]] ++ [0, 0]) (replicate 62 97) [[108, 111, 99, 97, 108]] :=
  @not_increments_62 (replicate 62 97) [[108, 111, 99, 97, 108]] rfl (by decide) [0, 0]

end outcome

end Mdns
