import Mdns.Dname.Text
import Mdns.Store

/-!
# `dnameify` in memory

The function goes through a string from its end to its beginning, and has read what it overwrites.
The characters that are compared with the separator are of type `char`, which may be signed: then no
character is equal to a separator above 127.
-/
namespace Mdns
open List

inductive CharSign where
  | signed
  | unsigned
  deriving DecidableEq, Repr

/-- The integer that a `char` is promoted to. -/
def CharSign.value (sign : CharSign) (c : UInt8) : Int :=
  if sign = .signed ∧ 128 ≤ c.toNat then (c.toNat : Int) - 256 else c.toNat

/-- `*src == sep`. -/
def CharSign.isSep (sign : CharSign) (sep c : UInt8) : Prop := sign.value c = (sep.toNat : Int)

instance (sign : CharSign) (sep c : UInt8) : Decidable (sign.isSep sep c) := inferInstanceAs (Decidable (_ = _))

/-- The loop with `dest` at `start + d` and `src` at `name + d - 1`: the memory that it leaves and
what it returns. -/
def dnameifyFrom (sign : CharSign) (sep : UInt8) (name start : Nat) : Nat → Mem → Nat → Nat → Mem × Int
  | 0, mem, len, labellen =>
    if sign.isSep sep (mem.getD (name - 1) 0) ∧ labellen = 0 then (mem, -1)
    else
      let mem := writeAt mem start [UInt8.ofNat labellen]
      if 65535 < len + labellen then (mem, -1) else (mem, len + labellen + 1)
  | d+1, mem, len, labellen =>
    if sign.isSep sep (mem.getD (name + d) 0) then
      if labellen = 0 then (mem, -1)
      else
        let mem := writeAt mem (start + (d + 1)) [UInt8.ofNat labellen]
        if 65535 < len + labellen then (mem, -1) else dnameifyFrom sign sep name start d mem (len + labellen + 1) 0
    else dnameifyFrom sign sep name start d (writeAt mem (start + (d + 1)) [mem.getD (name + d) 0]) len (labellen + 1)

/-- `dnameify(name, sep, dest)`; without a destination it is in place. -/
def dnameifyAt (sign : CharSign) (mem : Mem) (name : Nat) (sep : UInt8) (dest : Option Nat) : Mem × Int :=
  dnameifyFrom sign sep name (dest.getD name) (strlen (mem.drop name)) mem 0 0

section refinement
variable {sign : CharSign} {sep sep' before before' : UInt8} {mem : Mem} {name start : Nat}
  {cs label : List UInt8} {out : Mem}

def Returns (call : Mem × Int) (start : Nat) : Option Mem → Prop
  | some bytes => call.2 = bytes.length ∧ At call.1 start bytes
  | none => call.2 = -1

/-- The loop on what is left of the string. The other bytes of the text have been read; the label and
what lies behind it are where they belong. -/
theorem dnameifyFrom_returns (hname : 0 < name) (hbefore : sign.isSep sep before ↔ before' = sep')
    (hcs : ∀ c ∈ cs, sign.isSep sep c ↔ c = sep') (hsrc : At mem (name - 1) (before :: cs))
    (hdst : At mem (start + cs.length + 1) (label ++ out)) (hapart : name ≤ start ∨ start + cs.length + 1 < name) :
    Returns (dnameifyFrom sign sep name start cs.length mem out.length label.length) start
      (dnameifyLoop sep' before' cs.reverse label out) := by
  induction cs using List.reverseRecOn generalizing mem label out with
  | nil =>
    have hbyte : mem.getD (name - 1) 0 = before := hsrc.getD (i := 0) (by simp)
    have hput : At (writeAt mem start [UInt8.ofNat label.length]) start (dnamePutLabel label ++ out) :=
      hdst.writeAt_front
    have hempty : (sign.isSep sep before ∧ label.length = 0) ↔ (before' = sep' ∧ label = []) := by
      rw [hbefore, length_eq_zero_iff]
    rw [reverse_nil, length_nil, dnameifyFrom, dnameifyLoop, hbyte]
    by_cases hbad : before' = sep' ∧ label = []
    · rw [if_pos hbad, if_pos (hempty.mpr hbad)]
      rfl
    · rw [if_neg hbad, if_neg (fun h => hbad (hempty.mp h))]
      dsimp only
      by_cases hroom : 65535 < out.length + label.length
      · rw [if_pos hroom, if_pos hroom]
        rfl
      · rw [if_neg hroom, if_neg hroom]
        refine ⟨?_, hput⟩
        simp only [dnamePutLabel, length_append, length_cons]
        push_cast
        omega
  | append_singleton cs c ih =>
    rw [length_append, length_singleton] at hdst hapart ⊢
    have hfront : At mem (name - 1) (before :: cs) := hsrc.take
    have hbyte : mem.getD (name + cs.length) 0 = c := by
      have hat : At mem (name - 1 + (cs.length + 1)) [c] := @At.drop mem (name - 1) (before :: cs) [c] hsrc
      rw [show name - 1 + (cs.length + 1) = name + cs.length by omega] at hat
      exact hat.getD (i := 0) (by simp)
    -- what is written lies behind the rest of the string, or well before it
    have hkept : ∀ b, At (writeAt mem (start + (cs.length + 1)) [b]) (name - 1) (before :: cs) := by
      intro b
      rcases hapart with hle | hlt
      · exact hfront.writeAt_after (by rw [length_cons]; omega)
      · exact hfront.writeAt_before (by rw [length_singleton]; omega)
    have hapart' : name ≤ start ∨ start + cs.length + 1 < name := hapart.imp_right (fun hlt => by omega)
    have hcs' := fun d hd => hcs d (mem_append_left _ hd)
    have hsep := hcs c (mem_append_right _ (mem_singleton.mpr rfl))
    rw [reverse_append, reverse_singleton, singleton_append, dnameifyFrom, dnameifyLoop, hbyte]
    by_cases hc : c = sep'
    · rw [if_pos hc, if_pos (hsep.mpr hc)]
      by_cases hnil : label = []
      · rw [if_pos hnil, if_pos (length_eq_zero_iff.mpr hnil)]
        rfl
      · rw [if_neg hnil, if_neg (fun h => hnil (length_eq_zero_iff.mp h))]
        dsimp only
        by_cases hroom : 65535 < out.length + label.length
        · rw [if_pos hroom, if_pos hroom]
          rfl
        · rw [if_neg hroom, if_neg hroom]
          have hput : At (writeAt mem (start + (cs.length + 1)) [UInt8.ofNat label.length]) (start + cs.length + 1)
            ([] ++ (dnamePutLabel label ++ out)) := hdst.writeAt_front
          have hrest := ih hcs' (hkept _) hput hapart'
          have hlen : (dnamePutLabel label ++ out).length = out.length + label.length + 1 := by
            simp only [dnamePutLabel, length_append, length_cons]
            omega
          rw [hlen, length_nil] at hrest
          exact hrest
    · rw [if_neg hc, if_neg (fun h => hc (hsep.mp h))]
      have hput : At (writeAt mem (start + (cs.length + 1)) [c]) (start + cs.length + 1)
        ((c :: label) ++ out) := hdst.writeAt_front
      exact ih hcs' (hkept c) hput hapart'

/-- A string in memory, behind some byte, and the place for the result. -/
structure Laid (mem : Mem) (name : Nat) (before : UInt8) (text : CString) (dest : Option Nat) : Prop where
  pos : 0 < name
  string : At mem (name - 1) (before :: (text.1 ++ [0]))
  room : dest.getD name + text.1.length < mem.length
  apart : ∀ d, dest = some d → name + text.1.length < d ∨ d + text.1.length + 1 < name

variable {text : CString} {dest : Option Nat}

theorem strlen_at (h : At mem name (text.1 ++ [0])) : strlen (mem.drop name) = text.1.length := by
  obtain ⟨front, back, rfl, rfl⟩ := h
  have hall : ∀ c ∈ text.1, decide (c ≠ 0) = true := by
    intro c hc
    rw [decide_eq_true_eq]
    rintro rfl
    exact text.2 hc
  unfold strlen
  rw [append_assoc front, drop_left, append_assoc, takeWhile_append_of_pos hall]
  simp

theorem dnameifyAt_returns (h : Laid mem name before text dest) (hbefore : sign.isSep sep before ↔ before' = sep')
    (htext : ∀ c ∈ text.1, sign.isSep sep c ↔ c = sep') :
    Returns (dnameifyAt sign mem name sep dest) (dest.getD name) (dnameify before' text sep') := by
  have hstring : At mem name (text.1 ++ [0]) := by
    have hdrop := @At.drop mem (name - 1) [before] (text.1 ++ [0]) h.string
    rw [length_singleton, Nat.sub_add_cancel h.pos] at hdrop
    exact hdrop
  unfold dnameifyAt dnameify
  rw [strlen_at hstring]
  have hsrc : At mem (name - 1) (before :: text.1) := @At.take mem (name - 1) (before :: text.1) [0] h.string
  refine dnameifyFrom_returns h.pos hbefore htext hsrc (at_nil h.room) ?_
  cases hdest : dest with
  | none => exact .inl (Nat.le_refl name)
  | some d =>
    rcases h.apart d hdest with hbehind | hahead
    · exact .inl (Nat.le_trans (Nat.le_add_right name _) (Nat.le_of_lt hbehind))
    · exact .inr hahead

theorem isSep_iff (h : sign = .unsigned ∨ sep.toNat < 128) (c : UInt8) : sign.isSep sep c ↔ c = sep := by
  have hinj : (c.toNat : Int) = sep.toNat ↔ c = sep := by rw [Int.natCast_inj, UInt8.toNat_inj]
  unfold CharSign.isSep CharSign.value
  split
  · next hneg =>
    rcases h with hsign | hsmall
    · exact absurd (hneg.1.symm.trans hsign) (by decide)
    · have hlarge := hneg.2
      have hlt := c.toNat_lt
      refine iff_of_false (by omega) ?_
      rintro rfl
      omega
  · exact hinj

theorem not_isSep_signed (h : 128 ≤ sep.toNat) (c : UInt8) : ¬ CharSign.signed.isSep sep c := by
  have hlt := c.toNat_lt
  unfold CharSign.isSep CharSign.value
  by_cases hc : 128 ≤ c.toNat
  · rw [if_pos ⟨rfl, hc⟩]
    omega
  · rw [if_neg (fun hboth => hc hboth.2)]
    omega

end refinement

section both
variable {sign : CharSign} {sep before : UInt8} {mem : Mem} {name dst : Nat} {text : CString} {dest : Option Nat}

/-- The call is right about the text: it fails if a component is empty, and otherwise writes every
component behind its length. -/
def NameFromText (sign : CharSign) (mem : Mem) (name : Nat) (sep : UInt8) (text : CString) (dest : Option Nat) : Prop :=
  ((dnameifyAt sign mem name sep dest).2 = -1 ↔ [] ∈ text.1.splitOn sep) ∧
    ([] ∉ text.1.splitOn sep → (dnameifyAt sign mem name sep dest).2 = text.1.length + 1 ∧
      At (dnameifyAt sign mem name sep dest).1 (dest.getD name) ((text.1.splitOn sep).flatMap dnamePutLabel))

structure BothWays (sign : CharSign) (mem : Mem) (name : Nat) (sep : UInt8) (text : CString) (dst : Nat) : Prop where
  inPlace : NameFromText sign mem name sep text none
  copying : NameFromText sign mem name sep text (some dst)
  result : (dnameifyAt sign mem name sep none).2 = (dnameifyAt sign mem name sep (some dst)).2
  bytes : (dnameifyAt sign mem name sep none).2 ≠ -1 →
    slice (dnameifyAt sign mem name sep none).1 name (text.1.length + 1) =
    slice (dnameifyAt sign mem name sep (some dst)).1 dst (text.1.length + 1)

/-- The components after the first are as long as the number of the separator, so many that their
lengths and separators add up to nothing in a byte. -/
def Lookalike (sep : UInt8) (text : CString) : Prop :=
  (∀ l ∈ (text.1.splitOn sep).tail, l.length = sep.toNat) ∧ (text.1.splitOn sep).tail.length * (sep.toNat + 1) % 256 = 0

instance (sep : UInt8) (text : CString) : Decidable (Lookalike sep text) := inferInstanceAs (Decidable (_ ∧ _))

theorem eq_of_splitOn {cs first : List UInt8} {rest : Labels} (h : cs.splitOn sep = first :: rest) :
    cs = first ++ rest.flatMap (sep :: ·) := by
  induction cs generalizing first rest with
  | nil =>
    cases h
    rfl
  | cons c cs ih =>
    obtain ⟨first', rest', hsplit⟩ := exists_cons_of_ne_nil (splitOn_ne_nil sep cs)
    rw [splitOn_cons, hsplit] at h
    split at h
    · next hc =>
      cases h
      rw [flatMap_cons, nil_append, cons_append, hc, ← ih hsplit]
    · cases h
      rw [cons_append, ← ih hsplit]

theorem putLabel_eq_iff (hcomp : ∀ l ∈ text.1.splitOn sep, l.length ≤ 255) :
    dnamePutLabel text.1 = (text.1.splitOn sep).flatMap dnamePutLabel ↔ Lookalike sep text := by
  obtain ⟨first, rest, hsplit⟩ := exists_cons_of_ne_nil (splitOn_ne_nil sep text.1)
  have htext := eq_of_splitOn hsplit
  unfold Lookalike
  rw [hsplit] at hcomp ⊢
  obtain ⟨hfirst, hrest⟩ := forall_mem_cons.mp hcomp
  have hlater : rest.flatMap (sep :: ·) = rest.flatMap dnamePutLabel ↔ ∀ l ∈ rest, l.length = sep.toNat := by
    clear hsplit htext hcomp
    induction rest with
    | nil => exact iff_of_true rfl nofun
    | cons l rest ih =>
      obtain ⟨hl, hrest⟩ := forall_mem_cons.mp hrest
      have hbyte : sep = UInt8.ofNat l.length ↔ l.length = sep.toNat := by
        rw [← UInt8.toNat_inj, UInt8.toNat_ofNat', Nat.mod_eq_of_lt (by omega), eq_comm]
      rw [flatMap_cons, flatMap_cons, forall_mem_cons, ← ih hrest, ← hbyte]
      unfold dnamePutLabel
      rw [cons_append, cons_append, List.cons.injEq, append_cancel_left_eq]
  have hlen : (∀ l ∈ rest, l.length = sep.toNat) →
    (rest.flatMap (sep :: ·)).length = rest.length * (sep.toNat + 1) := by
    intro hall
    rw [length_flatMap, map_congr_left (fun l hl => by rw [length_cons, hall l hl]), map_const',
      sum_replicate_nat]
  have hhead : (∀ l ∈ rest, l.length = sep.toNat) →
      (UInt8.ofNat text.1.length = UInt8.ofNat first.length ↔ rest.length * (sep.toNat + 1) % 256 = 0) := by
    intro hall
    rw [← UInt8.toNat_inj, UInt8.toNat_ofNat', UInt8.toNat_ofNat', htext, length_append, hlen hall]
    omega
  rw [flatMap_cons, tail_cons]
  unfold dnamePutLabel
  rw [cons_append, List.cons.injEq]
  constructor
  · rintro ⟨hbyte, hbytes⟩
    have hall := hlater.mp (append_cancel_left (htext.symm.trans hbytes))
    exact ⟨hall, (hhead hall).mp hbyte⟩
  · rintro ⟨hall, hmod⟩
    exact ⟨(hhead hall).mpr hmod, htext.trans (congrArg (first ++ ·) (hlater.mpr hall))⟩

theorem At.unique {as bs : Mem} (ha : At mem name as) (hb : At mem name bs)
    (hlen : as.length = bs.length) : as = bs := by
  rw [← ha.slice, hlen, hb.slice]

theorem length_putLabels (text : CString) (sep : UInt8) :
    ((text.1.splitOn sep).flatMap dnamePutLabel).length = text.1.length + 1 := length_flatMap_components text.1

theorem nameFromText_of_isSep (hsep : ∀ c, sign.isSep sep c ↔ c = sep) (hlen : text.1.length < 65535)
    (hfirst : (text.1.splitOn sep).head? ≠ some []) (h : Laid mem name before text dest) :
    NameFromText sign mem name sep text dest := by
  have hreturns := dnameifyAt_returns h (hsep before) (fun c _ => hsep c)
  have hacc : Convertible sep before (text.1.splitOn sep) ↔ [] ∉ text.1.splitOn sep := by
    obtain ⟨first, rest, hsplit⟩ := exists_cons_of_ne_nil (splitOn_ne_nil sep text.1)
    rw [hsplit] at hfirst ⊢
    have hne : first ≠ [] := fun hnil => hfirst (congrArg some hnil)
    unfold Convertible
    rw [tail_cons, mem_cons, not_or]
    exact ⟨fun hc => ⟨hne.symm, hc.1⟩, fun hc => ⟨hc.2, fun hnil => absurd hnil hfirst⟩⟩
  rw [dnameify_eq] at hreturns
  by_cases hmem : [] ∈ text.1.splitOn sep
  · rw [if_neg (fun hc => hacc.mp hc.1 hmem)] at hreturns
    exact ⟨iff_of_true hreturns hmem, fun hnot => absurd hmem hnot⟩
  · rw [if_pos ⟨hacc.mpr hmem, Nat.le_of_lt hlen⟩] at hreturns
    obtain ⟨hret, hbytes⟩ := hreturns
    rw [length_putLabels] at hret
    push_cast at hret
    exact ⟨iff_of_false (by omega) hmem, fun _ => ⟨hret, hbytes⟩⟩

theorem signed_call (hsep : 128 ≤ sep.toNat) (hlen : text.1.length < 65535)
    (h : Laid mem name before text dest) : (dnameifyAt .signed mem name sep dest).2 = text.1.length + 1 ∧
      At (dnameifyAt .signed mem name sep dest).1 (dest.getD name) (dnamePutLabel text.1) := by
  have hnone := not_isSep_signed hsep
  have hzero : ∀ c ∈ text.1, CharSign.signed.isSep sep c ↔ c = 0 := by
    intro c hc
    refine iff_of_false (hnone c) ?_
    rintro rfl
    exact text.2 hc
  have hbefore : CharSign.signed.isSep sep before ↔ (1 : UInt8) = 0 := iff_of_false (hnone before) (by decide)
  have hreturns := dnameifyAt_returns h hbefore hzero
  have hone : text.1.splitOn 0 = [text.1] := splitOn_eq_singleton text.2
  have hacc : Convertible 0 1 [text.1] := ⟨not_mem_nil, fun _ => by decide⟩
  rw [dnameify_eq, hone, if_pos ⟨hacc, Nat.le_of_lt hlen⟩, flatMap_singleton] at hreturns
  obtain ⟨hret, hbytes⟩ := hreturns
  refine ⟨?_, hbytes⟩
  rw [hret]
  simp [dnamePutLabel]

theorem nameFromText_signed_iff (hsep : 128 ≤ sep.toNat) (hlen : text.1.length < 65535)
    (hfirst : (text.1.splitOn sep).head? ≠ some []) (hcomp : ∀ l ∈ text.1.splitOn sep, l.length ≤ 255)
    (h : Laid mem name before text dest) : NameFromText .signed mem name sep text dest ↔ Lookalike sep text := by
  obtain ⟨hret, hbytes⟩ := signed_call hsep hlen h
  rw [← putLabel_eq_iff hcomp]
  have hlens : (dnamePutLabel text.1).length = ((text.1.splitOn sep).flatMap dnamePutLabel).length := by
    rw [length_putLabels]
    rfl
  constructor
  · rintro ⟨hfails, hright⟩
    have hnot : [] ∉ text.1.splitOn sep := fun hmem => by
      have := hfails.mpr hmem
      omega
    exact hbytes.unique (hright hnot).2 hlens
  · intro heq
    have hall := ((putLabel_eq_iff hcomp).mp heq).1
    have hnot : [] ∉ text.1.splitOn sep := by
      obtain ⟨first, rest, hsplit⟩ := exists_cons_of_ne_nil (splitOn_ne_nil sep text.1)
      rw [hsplit] at hfirst hall ⊢
      intro hmem
      rcases mem_cons.mp hmem with hnil | hmem
      · exact hfirst (congrArg some hnil.symm)
      · have hzero := hall [] hmem
        rw [length_nil] at hzero
        omega
    exact ⟨iff_of_false (by omega) hnot, fun _ => ⟨hret, heq ▸ hbytes⟩⟩

theorem bothWays_of_nameFromText (hin : NameFromText sign mem name sep text none)
    (hout : NameFromText sign mem name sep text (some dst)) : BothWays sign mem name sep text dst := by
  refine ⟨hin, hout, ?_, fun hok => ?_⟩
  · by_cases hmem : [] ∈ text.1.splitOn sep
    · rw [hin.1.mpr hmem, hout.1.mpr hmem]
    · rw [(hin.2 hmem).1, (hout.2 hmem).1]
  · have hnot : [] ∉ text.1.splitOn sep := fun hmem => hok (hin.1.mpr hmem)
    have hleft := (hin.2 hnot).2.slice
    have hright := (hout.2 hnot).2.slice
    rw [length_putLabels] at hleft hright
    exact hleft.trans hright.symm

/-- Text becomes a name, in place and into a buffer, unless the separator is above 127 and `char` is
signed. -/
theorem dnameify_bothWays_iff (hne : text.1 ≠ []) (hfirst : text.1.head? ≠ some sep) (hlen : text.1.length < 65535)
    (hcomp : ∀ l ∈ text.1.splitOn sep, l.length ≤ 255) (hin : Laid mem name before text none)
    (hout : Laid mem name before text (some dst)) :
    BothWays sign mem name sep text dst ↔ sign = .unsigned ∨ sep.toNat < 128 ∨ sep ∉ text.1 ∨ Lookalike sep text := by
  have hhead : (text.1.splitOn sep).head? ≠ some [] := by
    obtain ⟨c, cs, hcs⟩ := exists_cons_of_ne_nil hne
    rw [hcs] at hfirst ⊢
    obtain ⟨l, rest, hsplit⟩ := exists_cons_of_ne_nil (splitOn_ne_nil sep cs)
    rw [splitOn_cons, if_neg (fun hc => hfirst (congrArg some hc)), hsplit, modifyHead_cons]
    exact fun hnil => nomatch hnil
  by_cases hknown : sign = .unsigned ∨ sep.toNat < 128
  · have hsep := isSep_iff hknown
    refine iff_of_true ?_ ?_
    · exact bothWays_of_nameFromText (nameFromText_of_isSep hsep hlen hhead hin)
        (nameFromText_of_isSep hsep hlen hhead hout)
    · exact hknown.imp_right .inl
  · obtain ⟨hsign, hlarge⟩ := not_or.mp hknown
    obtain rfl : sign = .signed := by
      cases sign with
      | signed => rfl
      | unsigned => exact absurd rfl hsign
    have hlarge := Nat.not_lt.mp hlarge
    have hinIff := nameFromText_signed_iff hlarge hlen hhead hcomp hin
    have houtIff := nameFromText_signed_iff hlarge hlen hhead hcomp hout
    constructor
    · intro hboth
      exact .inr (.inr (.inr (hinIff.mp hboth.inPlace)))
    · rintro (habs | habs | hnot | hlook)
      · exact absurd habs hsign
      · omega
      · have hlook : Lookalike sep text := by
          unfold Lookalike
          rw [splitOn_eq_singleton hnot]
          exact ⟨nofun, by simp⟩
        exact bothWays_of_nameFromText (hinIff.mpr hlook) (houtIff.mpr hlook)
      · exact bothWays_of_nameFromText (hinIff.mpr hlook) (houtIff.mpr hlook)

/-- `a.b`, with room for a copy behind it. -/
theorem dnameify_bothWays_dot :
    BothWays .signed [0, 97, 46, 98, 0, 0, 0, 0, 0, 0] 1 46 ⟨[97, 46, 98], by decide⟩ 6 := by
  have hstring : At [0, 97, 46, 98, 0, 0, 0, 0, 0, 0] 0 [0, 97, 46, 98, 0] := ⟨[], [0, 0, 0, 0, 0], rfl, rfl⟩
  have hin : Laid [0, 97, 46, 98, 0, 0, 0, 0, 0, 0] 1 0 ⟨[97, 46, 98], by decide⟩ none :=
    ⟨by decide, hstring, by decide, nofun⟩
  have hout : Laid [0, 97, 46, 98, 0, 0, 0, 0, 0, 0] 1 0 ⟨[97, 46, 98], by decide⟩ (some 6) := by
    refine ⟨by decide, hstring, by decide, ?_⟩
    intro d hd
    cases hd
    exact .inl (by decide)
  exact (dnameify_bothWays_iff (by decide) (by decide) (by decide) (by decide) hin hout).mpr (.inr (.inl (by decide)))

/-- The separator 128 is not found in a string of signed characters. -/
theorem dnameify_signed_separator :
    ¬ BothWays .signed [0, 97, 128, 98, 0, 0, 0, 0, 0, 0] 1 128 ⟨[97, 128, 98], by decide⟩ 6 := by
  intro h
  have hbytes := (h.inPlace.2 (by decide)).2.slice
  exact absurd hbytes (by decide +kernel)

end both

end Mdns
