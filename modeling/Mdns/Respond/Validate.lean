import Mdns.Dname.InPlace
import Mdns.Respond.Growth
import Mdns.Txt

/-!
# The services that are accepted

An empty record may be written as an empty string, but not as a single colon; a leading colon is
taken for an empty string in front of the others. The labels of an accepted service may be too long
for a name by the underscore of its type, or empty.
-/
namespace Mdns
open Lib List

variable {before : UInt8} {text : CString} {domname : CString} {s s' s₀ : Service}

section keyvals

def pairs (text : CString) : Labels := text.1.splitOn colon

/-- The data of the TXT record that a text stands for: an empty string for the empty record, and
otherwise components of which none is empty. -/
def txtOf (text : CString) : Option Mem :=
  if text.1 = [] ∨ text.1 = [colon] then some [0]
  else if [] ∉ pairs text ∧ (encodeTxt (pairs text)).length ≤ maxKeyvalLen then some (encodeTxt (pairs text))
  else none

/-- The key/value pairs are accepted exactly if they stand for a record, and then its data are the
first `kvlen` bytes. -/
def KeyvalsRight (domname : CString) (before : UInt8) (text : CString) (s : Service) : Prop :=
  match validateService domname before (some text) s with
  | .ok s' => ∃ bytes, s'.keyvals = some bytes ∧ txtOf text = some (bytes.take s'.kvlen)
  | .error _ => txtOf text = none

/-- Texts that `validate_service` understands: none of a single colon; an empty one only behind
another byte than a colon; one with a leading colon only if something else is wrong with it; and one
of 65535 bytes only with an empty component. -/
structure Understood (before : UInt8) (text : CString) : Prop where
  empty : text.1 = [] → before ≠ colon
  leading : text.1.head? = some colon → text.1 ≠ [colon] ∧
    (before = colon ∨ [] ∈ (pairs text).tail ∨ (254 < text.1.length ∧ text.1.length ≠ 65535))
  wrapped : text.1.length = 65535 → [] ∈ (pairs text).tail ∨ text.1.head? = some colon

theorem length_encodeTxt_pairs (text : CString) : (encodeTxt (pairs text)).length = text.1.length + 1 :=
  length_flatMap_components text.1

theorem validateService_pairs (h : validateService domname before none s = .ok s₀) :
    validateService domname before (some text) s =
      if Convertible colon before (pairs text) ∧ (text.1.length ≤ 254 ∨ text.1.length = 65535) then
        .ok { s with keyvals := some (encodeTxt (pairs text)), kvlen := (text.1.length + 1) % 65536 }
      else .error .tooBig := by
  unfold validateService at h ⊢
  split at h
  · cases h
  · split at h
    · cases h
    · next hlabels hlen =>
      rw [if_neg hlabels, if_neg hlen]
      dsimp only
      rw [dnameify_eq]
      have hmax : maxKeyvalLen = 255 := rfl
      have hsize : ((text.1.splitOn colon).flatMap dnamePutLabel).length = text.1.length + 1 :=
        length_putLabels text colon
      by_cases hacc : Convertible colon before (text.1.splitOn colon) ∧ text.1.length ≤ 65535
      · rw [if_pos hacc]
        dsimp only
        rw [hsize]
        by_cases hbig : (text.1.length + 1) % 65536 > maxKeyvalLen
        · rw [if_pos hbig, if_neg]
          rintro ⟨-, hle | heq⟩ <;> omega
        · rw [if_neg hbig, if_pos ⟨hacc.1, by omega⟩]
          rfl
      · rw [if_neg hacc, if_neg]
        rintro ⟨hconv, hlens⟩
        exact hacc ⟨hconv, by omega⟩

theorem pairs_of_head (hne : text.1 ≠ []) (hhead : text.1.head? ≠ some colon) :
    ∃ first rest, pairs text = first :: rest ∧ first ≠ [] := by
  obtain ⟨c, cs, hcs⟩ := exists_cons_of_ne_nil hne
  obtain ⟨first, rest, hsplit⟩ := exists_cons_of_ne_nil (splitOn_ne_nil colon cs)
  refine ⟨c :: first, rest, ?_, cons_ne_nil c first⟩
  rw [hcs] at hhead
  unfold pairs
  rw [hcs, splitOn_cons, if_neg (fun hc => hhead (congrArg some hc)), hsplit, modifyHead_cons]

theorem pairs_of_colon {cs : List UInt8} (hcs : text.1 = colon :: cs) : pairs text = [] :: cs.splitOn colon := by
  unfold pairs
  rw [hcs, splitOn_cons, if_pos rfl]

def TakenRight (before : UInt8) (text : CString) : Prop :=
  if Convertible colon before (pairs text) ∧ (text.1.length ≤ 254 ∨ text.1.length = 65535) then
    txtOf text = some ((encodeTxt (pairs text)).take ((text.1.length + 1) % 65536))
  else txtOf text = none

theorem keyvalsRight_iff (h : validateService domname before none s = .ok s₀) :
    KeyvalsRight domname before text s ↔ TakenRight before text := by
  unfold KeyvalsRight TakenRight
  rw [validateService_pairs h]
  by_cases hacc : Convertible colon before (pairs text) ∧ (text.1.length ≤ 254 ∨ text.1.length = 65535)
  · rw [if_pos hacc, if_pos hacc]
    constructor
    · rintro ⟨bytes, hbytes, htxt⟩
      cases hbytes
      exact htxt
    · intro htxt
      exact ⟨_, rfl, htxt⟩
  · rw [if_neg hacc, if_neg hacc]

theorem takenRight_nil (hnil : text.1 = []) : TakenRight before text ↔ Understood before text := by
  have hpairs : pairs text = [[]] := by
    unfold pairs
    rw [hnil]
    rfl
  have hacc : Convertible colon before [[]] ↔ before ≠ colon := by
    unfold Convertible
    simp
  have hwant : txtOf text = some [0] := if_pos (.inl hnil)
  unfold TakenRight
  rw [hpairs, hwant]
  by_cases hbefore : before = colon
  · rw [if_neg (fun hc => hacc.mp hc.1 hbefore)]
    exact iff_of_false nofun (fun hu => hu.empty hnil hbefore)
  · rw [if_pos ⟨hacc.mpr hbefore, .inl (by rw [hnil]; decide)⟩, hnil]
    refine iff_of_true rfl ⟨fun _ => hbefore, ?_, ?_⟩
    · rw [hnil]
      exact nofun
    · rw [hnil]
      exact nofun

theorem takenRight_colon {cs : List UInt8} (hcs : text.1 = colon :: cs) :
    TakenRight before text ↔ Understood before text := by
  have hnil : text.1 ≠ [] := by
    rw [hcs]
    exact cons_ne_nil colon cs
  have hhead : text.1.head? = some colon := by
    rw [hcs]
    rfl
  have hpairs := pairs_of_colon hcs
  have hacc : Convertible colon before (pairs text) ↔ [] ∉ (pairs text).tail ∧ before ≠ colon := by
    unfold Convertible
    rw [hpairs]
    simp
  unfold TakenRight
  by_cases hone : text.1 = [colon]
  · -- a single colon
    have hempty : [] ∈ (pairs text).tail := by
      rw [hpairs]
      rw [hone] at hcs
      cases hcs
      exact mem_singleton.mpr rfl
    have hwant : txtOf text = some [0] := if_pos (.inr hone)
    rw [if_neg (fun hc => (hacc.mp hc.1).1 hempty), hwant]
    exact iff_of_false nofun (fun hu => (hu.leading hhead).1 hone)
  · -- a colon in front of something
    have hwant : txtOf text = none := by
      unfold txtOf
      rw [if_neg (not_or.mpr ⟨hnil, hone⟩), if_neg]
      rintro ⟨hmem, -⟩
      rw [hpairs] at hmem
      exact hmem (mem_cons_self ..)
    rw [hwant]
    by_cases hbad : Convertible colon before (pairs text) ∧ (text.1.length ≤ 254 ∨ text.1.length = 65535)
    · rw [if_pos hbad]
      refine iff_of_false nofun (fun hu => ?_)
      obtain ⟨htail, hbefore⟩ := hacc.mp hbad.1
      rcases (hu.leading hhead).2 with hb | hmem | hlen
      · exact hbefore hb
      · exact htail hmem
      · omega
    · rw [if_neg hbad]
      refine iff_of_true rfl ⟨fun hempty => absurd hempty hnil, fun _ => ⟨hone, ?_⟩, fun _ => .inr hhead⟩
      by_contra hnot
      obtain ⟨hbefore, hnot⟩ := not_or.mp hnot
      obtain ⟨htail, hlen⟩ := not_or.mp hnot
      exact hbad ⟨hacc.mpr ⟨htail, hbefore⟩, by omega⟩

theorem takenRight_plain (hnil : text.1 ≠ []) (hhead : text.1.head? ≠ some colon) :
    TakenRight before text ↔ Understood before text := by
  obtain ⟨first, rest, hpairs, hfirst⟩ := pairs_of_head hnil hhead
  have hone : text.1 ≠ [colon] := fun heq => hhead (congrArg List.head? heq)
  have hacc : Convertible colon before (pairs text) ↔ [] ∉ (pairs text).tail := by
    unfold Convertible
    rw [hpairs]
    simp [hfirst]
  have hmem : [] ∈ pairs text ↔ [] ∈ (pairs text).tail := by
    rw [hpairs, mem_cons, tail_cons]
    exact or_iff_right hfirst.symm
  have hwant : txtOf text =
    if [] ∉ (pairs text).tail ∧ text.1.length + 1 ≤ maxKeyvalLen then some (encodeTxt (pairs text)) else none := by
    unfold txtOf
    rw [if_neg (not_or.mpr ⟨hnil, hone⟩), length_encodeTxt_pairs]
    simp only [hmem]
  have hmax : maxKeyvalLen = 255 := rfl
  have hunder : Understood before text ↔ (text.1.length = 65535 → [] ∈ (pairs text).tail) := by
    constructor
    · intro hu hlen
      exact (hu.wrapped hlen).resolve_right hhead
    · intro hlen
      exact ⟨fun hempty => absurd hempty hnil, fun habs => absurd habs hhead, fun heq => .inl (hlen heq)⟩
  unfold TakenRight
  rw [hwant, hunder]
  by_cases htail : [] ∈ (pairs text).tail
  · rw [if_neg (fun hc => hacc.mp hc.1 htail), if_neg (fun hc => hc.1 htail)]
    exact iff_of_true rfl (fun _ => htail)
  · by_cases hlen : text.1.length ≤ 254
    · rw [if_pos ⟨hacc.mpr htail, .inl hlen⟩, if_pos ⟨htail, by omega⟩]
      refine iff_of_true ?_ (fun heq => by omega)
      rw [Nat.mod_eq_of_lt (by omega), ← length_encodeTxt_pairs, take_length]
    · rw [if_neg (show ¬ ([] ∉ (pairs text).tail ∧ text.1.length + 1 ≤ maxKeyvalLen) from fun hc => by omega)]
      by_cases hwrap : text.1.length = 65535
      · rw [if_pos ⟨hacc.mpr htail, .inr hwrap⟩]
        exact iff_of_false nofun (fun himp => htail (himp hwrap))
      · rw [if_neg (fun hc => by omega)]
        exact iff_of_true rfl (fun heq => absurd heq hwrap)

/-- The key/value pairs are validated as they should be exactly if the text is understood. -/
theorem validateService_keyvals_iff (h : validateService domname before none s = .ok s₀) :
    KeyvalsRight domname before text s ↔ Understood before text := by
  rw [keyvalsRight_iff h]
  by_cases hnil : text.1 = []
  · exact takenRight_nil hnil
  · by_cases hhead : text.1.head? = some colon
    · obtain ⟨c, cs, hcs⟩ := exists_cons_of_ne_nil hnil
      rw [hcs] at hhead
      cases hhead
      exact takenRight_colon hcs
    · exact takenRight_plain hnil hhead

/-- `foo._http._tcp`, in order. -/
def fooHttp : Service := { servname := fooName, servtype := httpServtype, port := 80, proto := .tcp }

theorem validateService_keyvals_ab : KeyvalsRight localDomain 58 ⟨[97, 58, 98], by decide⟩ fooHttp := by
  have horder : validateService localDomain 58 none fooHttp = .ok fooHttp := rfl
  refine (validateService_keyvals_iff horder).mpr ⟨?_, ?_, ?_⟩ <;> decide

/-- A single colon does not stand for the empty record. -/
theorem validateService_rejects_colon :
    validateService localDomain 0 (some ⟨[58], by decide⟩) fooHttp = .error .tooBig ∧
    ¬ KeyvalsRight localDomain 0 ⟨[58], by decide⟩ fooHttp := by
  have hreject : validateService localDomain 0 (some ⟨[58], by decide⟩) fooHttp = .error .tooBig := rfl
  refine ⟨hreject, fun hright => ?_⟩
  unfold KeyvalsRight at hright
  rw [hreject] at hright
  exact absurd hright (by decide)

end keyvals

section roundTrip
variable {strs : List (List UInt8)} {sign : CharSign} {mem : Mem} {name : Nat}

theorem pairs_join (hne : strs ≠ []) (hstrs : ∀ l ∈ strs, colon ∉ l) : (join strs).splitOn colon = strs := by
  induction strs with
  | nil => exact absurd rfl hne
  | cons l strs ih =>
    obtain ⟨hl, hstrs⟩ := forall_mem_cons.mp hstrs
    by_cases hnil : strs = []
    · rw [hnil, join_singleton, splitOn_eq_singleton hl]
    · rw [join_cons hnil, splitOn_append_sep, splitOn_eq_singleton hl, ih hnil hstrs]
      rfl

theorem length_le_encodeTxt {l : List UInt8} (hl : l ∈ strs) : l.length + 1 ≤ (encodeTxt strs).length := by
  induction strs with
  | nil => cases hl
  | cons l' strs ih =>
    rw [length_encodeTxt_cons]
    rcases mem_cons.mp hl with rfl | hl
    · omega
    · have hle := ih hl
      omega

theorem txtToCNcpy_encodeTxt {p : Mem} {txt : Nat} (hne : strs ≠ []) (hstrs : ∀ l ∈ strs, 0 < l.length ∧ l.length < 256)
    (hlen : (encodeTxt strs).length ≤ 255) (hat : At p txt (encodeTxt strs)) :
    Comes (fun fuel => txtToCNcpy fuel 256 p txt (encodeTxt strs).length) (some (join strs)) := by
  let r : TxtRecord := ⟨strs, .done, hstrs⟩
  have hbytes : r.bytes = encodeTxt strs := append_nil _
  have hfits : r.Fits 256 := by
    unfold TxtRecord.Fits
    split
    · next kept hfill =>
      have hkept : (encodeTxt kept).length ≤ 255 := (length_fill_le hfill).trans hlen
      refine ⟨by omega, fun _ hblank => ?_⟩
      obtain ⟨_, -, hzero⟩ := hblank
      cases hzero
    · show 0 < r.bytes.length ∧ r.bytes.length ≤ 256
      rw [hbytes, ← length_join hne]
      rw [← length_join hne] at hlen
      omega
  obtain ⟨⟨text, hcomes, -, htext⟩, -⟩ :=
    (txtToCNcpy_converts p txt (encodeTxt strs) 256 (by decide) hat).mpr ⟨r, hbytes, hfits⟩
  have hjoin := htext strs (fun l hl => (hstrs l hl).2) rfl
  rw [keptStrings_eq_self (by omega)] at hjoin
  rw [← hjoin]
  exact hcomes

/-- Key/value pairs that have been converted in place are decoded to the same text. -/
theorem txt_roundTrip (hne : strs ≠ []) (hstrs : ∀ l ∈ strs, l ≠ [] ∧ colon ∉ l) (htext : text.1 = join strs)
    (hlen : text.1.length ≤ 254) (h : Laid mem name before text none) :
    ∃ kvlen : Nat, (dnameifyAt sign mem name colon none).2 = kvlen ∧
      Comes (fun fuel => txtToCNcpy fuel 256 (dnameifyAt sign mem name colon none).1 name kvlen) (some text.1) := by
  have hpairs : text.1.splitOn colon = strs := by
    rw [htext]
    exact pairs_join hne (fun l hl => (hstrs l hl).2)
  have hsize : (encodeTxt strs).length = text.1.length + 1 := by
    rw [htext, length_join hne]
  have hhead : (text.1.splitOn colon).head? ≠ some [] := by
    obtain ⟨l, rest, rfl⟩ := exists_cons_of_ne_nil hne
    rw [hpairs]
    exact fun hnil => (hstrs l (mem_cons_self ..)).1 (Option.some.inj hnil)
  have hsep : ∀ c, sign.isSep colon c ↔ c = colon := isSep_iff (.inr (by decide))
  have hright := nameFromText_of_isSep hsep (by omega) hhead h
  rw [NameFromText, hpairs] at hright
  obtain ⟨hret, hbytes⟩ := hright.2 (fun hmem => (hstrs [] hmem).1 rfl)
  refine ⟨(encodeTxt strs).length, ?_, ?_⟩
  · rw [hret, hsize]
    push_cast
    rfl
  · rw [htext]
    refine txtToCNcpy_encodeTxt hne (fun l hl => ⟨length_pos_iff.mpr (hstrs l hl).1, ?_⟩) (by omega) hbytes
    have hle := length_le_encodeTxt hl
    omega

/-- `a:bc` in memory. -/
theorem txt_roundTrip_ab : ∃ kvlen : Nat, (dnameifyAt .signed [0, 97, 58, 98, 99, 0] 1 colon none).2 = kvlen ∧
    Comes (fun fuel => txtToCNcpy fuel 256 (dnameifyAt .signed [0, 97, 58, 98, 99, 0] 1 colon none).1 1 kvlen)
      (some [97, 58, 98, 99]) := by
  have hlaid : Laid [0, 97, 58, 98, 99, 0] 1 0 ⟨[97, 58, 98, 99], by decide⟩ none :=
    ⟨by decide, ⟨[], [], rfl, rfl⟩, by decide, nofun⟩
  exact txt_roundTrip (show [[97], [98, 99]] ≠ [] by decide) (by decide) rfl (by decide) hlaid

end roundTrip

section names

/-- `dname_put_label`: the label behind its length and with a terminating zero, and the offset of
that zero. -/
def putLabelAt (mem : Mem) (dst : Nat) (label : List UInt8) : Mem × Nat :=
  (writeAt mem dst (dnamePutLabel label ++ [0]), dst + 1 + label.length % 256)

/-- `reset_fqsn`, one store after the other. -/
def resetFqsnAt (domname : CString) (s : Service) : Service :=
  let (mem, ptrname) := putLabelAt s.fqsn 0 s.servname.1
  let (mem, p) := putLabelAt mem (ptrname + 1) s.servtype.1
  let mem := writeAt mem ptrname [mem.getD (ptrname + 1) 0 + 1]
  let mem := writeAt mem (ptrname + 1) [underscore]
  let (mem, p) := putLabelAt mem p (protoLabel s.proto)
  let (mem, _) := putLabelAt mem p domname.1
  { s with fqsn := mem, ptrname }

theorem putLabelAt_append (mem front label : List UInt8) :
    (putLabelAt (writeAt mem 0 (front ++ [0])) front.length label).1 =
      writeAt mem 0 (front ++ dnamePutLabel label ++ [0]) := by
  have hover := writeAt_writeAt_over mem front [0] (dnamePutLabel label ++ [0]) [] (Nat.zero_le _)
    (.inr ⟨rfl, by simp [dnamePutLabel]⟩)
  rw [Nat.zero_add, append_nil, append_nil, ← append_assoc] at hover
  exact hover

theorem putTypeAt (mem front label : List UInt8) :
    let stored := (putLabelAt (writeAt mem 0 (front ++ [0])) (front.length + 1) label).1
    writeAt (writeAt stored front.length [stored.getD (front.length + 1) 0 + 1]) (front.length + 1) [underscore] =
      writeAt mem 0 (front ++ dnamePutLabel (underscore :: label) ++ [0]) := by
  intro stored
  have hstored : stored = writeAt mem 0 (front ++ ([0] ++ (dnamePutLabel label ++ [0]))) := by
    have hover := writeAt_writeAt_over mem (front ++ [0]) [] (dnamePutLabel label ++ [0]) []
      (Nat.zero_le _) (.inr ⟨rfl, Nat.zero_le _⟩)
    rw [Nat.zero_add, append_nil, append_nil, append_nil, length_append, append_assoc] at hover
    exact hover
  have hbyte : stored.getD (front.length + 1) 0 = UInt8.ofNat label.length := by
    rw [hstored]
    simp [writeAt, dnamePutLabel]
  have hlength := writeAt_writeAt_over mem front [0] [UInt8.ofNat label.length + 1]
    (dnamePutLabel label ++ [0]) (Nat.zero_le _) (.inl rfl)
  have hunderscore := writeAt_writeAt_over mem (front ++ [UInt8.ofNat label.length + 1])
    [UInt8.ofNat label.length] [underscore] (label ++ [0])
    (Nat.zero_le _) (.inl rfl)
  have hsum : UInt8.ofNat label.length + 1 = UInt8.ofNat (label.length + 1) := by
    rw [UInt8.ofNat_add]
    rfl
  rw [Nat.zero_add] at hlength hunderscore
  rw [hbyte, hstored, hlength]
  simp only [append_assoc, length_append, dnamePutLabel, cons_append, length_cons, hsum] at hunderscore ⊢
  exact hunderscore

theorem resetFqsnAt_eq (hname : s.servname.1.length < 256) (htype : s.servtype.1.length < 256) :
    resetFqsnAt domname s = resetFqsn domname s := by
  let first := dnamePutLabel s.servname.1
  let second := dnamePutLabel (underscore :: s.servtype.1)
  have hfirst : first.length = s.servname.1.length + 1 := length_cons
  have hptr : 0 + 1 + s.servname.1.length % 256 = first.length := by
    rw [Nat.mod_eq_of_lt hname]
    omega
  have hthird : first.length + 1 + 1 + s.servtype.1.length % 256 = (first ++ second).length := by
    rw [Nat.mod_eq_of_lt htype, length_append]
    simp only [second, dnamePutLabel, length_cons]
    omega
  have hfourth : (first ++ second).length + 1 + (protoLabel s.proto).length % 256 =
    (first ++ second ++ dnamePutLabel (protoLabel s.proto)).length := by
    rw [@List.length_append _ (first ++ second), Nat.add_assoc]
    cases s.proto <;> rfl
  have htype := putTypeAt s.fqsn first s.servtype.1
  have hproto := putLabelAt_append s.fqsn (first ++ second) (protoLabel s.proto)
  have hdomain := putLabelAt_append s.fqsn (first ++ second ++ dnamePutLabel (protoLabel s.proto)) domname.1
  have hwhole : first ++ second ++ dnamePutLabel (protoLabel s.proto) ++ dnamePutLabel domname.1 ++ [0] =
      encodeName (s.servname.1 :: s.suffix domname) := by
    simp only [encodeName, Service.suffix, flatMap_cons, flatMap_nil, append_nil, append_assoc, first, second]
  unfold resetFqsnAt resetFqsn
  simp only [putLabelAt] at htype hproto hdomain ⊢
  rw [hptr, hthird, hfourth, htype, hproto, hdomain, hwhole, hfirst]

/-- The name of a service is an uncompressed one of the four labels, with its second label at `ptrname`,
and has room for the two bytes of a renaming. -/
structure WellFormedFqsn (domname : CString) (s : Service) : Prop where
  labels : ∀ l ∈ s.servname.1 :: s.suffix domname, 0 < l.length ∧ l.length ≤ maxLabelLen
  written : At s.fqsn 0 (encodeName (s.servname.1 :: s.suffix domname))
  room : (encodeName (s.servname.1 :: s.suffix domname)).length + 2 ≤ maxNameLen
  whole : Expands (.plain s.fqsn) 0 (s.servname.1 :: s.suffix domname)
  second : Expands (.plain s.fqsn) s.ptrname (s.suffix domname)
  size : Comes (fun fuel => dnameSize fuel s.fqsn 0)
    (some ((encodeName (s.servname.1 :: s.suffix domname)).length : Int))

theorem length_le_of_validLabel {name : CString} (h : validLabel name = true) : name.1.length ≤ 63 :=
  (of_decide_eq_true h).1

theorem wellNamed_resetFqsn (hroom : (encodeName (s.servname.1 :: s.suffix domname)).length + 2 ≤ maxNameLen)
    (hlabels : ∀ l ∈ s.servname.1 :: s.suffix domname, 0 < l.length ∧ l.length ≤ maxLabelLen) :
    WellFormedFqsn domname (resetFqsn domname s) := by
  have hls : ∀ l ∈ s.servname.1 :: s.suffix domname, 0 < l.length ∧ l.length < 64 :=
    fun l hl => ⟨(hlabels l hl).1, Nat.lt_succ_of_le (hlabels l hl).2⟩
  have hat : At (resetFqsn domname s).fqsn 0 (encodeName (s.servname.1 :: s.suffix domname)) := at_reset s.fqsn
  have hbehind : At (resetFqsn domname s).fqsn (s.servname.1.length + 1) (encodeName (s.suffix domname)) := by
    have hsplit := hat
    rw [encodeName_cons] at hsplit
    have hdrop := hsplit.drop
    rw [Nat.zero_add] at hdrop
    exact hdrop
  have hown := ownBytes_encodeName hls hat
  refine ⟨hlabels, hat, hroom, expands_encodeName hls hat, ?_, ?_⟩
  · exact expands_encodeName (fun l hl => hls l (mem_cons_of_mem _ hl)) hbehind
  · refine ⟨(resetFqsn domname s).fqsn.length + 1, fun fuel hfuel => ?_⟩
    have hsize := dnameSize_eq hown hfuel
    rw [Nat.zero_add, Nat.cast_zero, Int.sub_zero] at hsize
    exact hsize

/-- Accepted labels make a well-formed name exactly if none that is used as it is is empty and the
type has room for its underscore. -/
theorem resetFqsnAt_wellNamed_iff {keyvals : Option CString} (hdom : validLabel domname = true)
    (h : validateService domname before keyvals s = .ok s') :
    WellFormedFqsn domname (resetFqsnAt domname s') ↔
      s.servname.1 ≠ [] ∧ s.servtype.1.length ≤ 62 ∧ domname.1 ≠ [] := by
  obtain ⟨hname, htype, heq⟩ := validateService_eq_ok h
  have hservname : s'.servname = s.servname := by rw [heq]
  have hservtype : s'.servtype = s.servtype := by rw [heq]
  have hdomain := length_le_of_validLabel hdom
  rw [resetFqsnAt_eq (by rw [hservname]; omega) (by rw [hservtype]; omega)]
  have hlength := length_serviceName domname s' s'.servname.1
  constructor
  · intro hwell
    have hfirst := hwell.labels s'.servname.1 (mem_cons_self ..)
    have hsecond := hwell.labels (underscore :: s'.servtype.1) (by simp [Service.suffix, resetFqsn])
    have hlast := hwell.labels domname.1 (by simp [Service.suffix])
    rw [hservname] at hfirst
    rw [hservtype] at hsecond
    exact ⟨length_pos_iff.mp hfirst.1, Nat.le_of_succ_le_succ hsecond.2, length_pos_iff.mp hlast.1⟩
  · rintro ⟨hne, hshort, hdne⟩
    rw [← hservname] at hne hname
    rw [← hservtype] at hshort
    apply wellNamed_resetFqsn
    · have hmax : maxNameLen = 255 := rfl
      omega
    · have hmax : maxLabelLen = 63 := rfl
      have hproto := length_protoLabel s'.proto
      simp only [Service.suffix, forall_mem_cons, length_cons]
      refine ⟨⟨length_pos_iff.mpr hne, hname⟩, by omega, by omega, ⟨length_pos_iff.mpr hdne, hdomain⟩, ?_⟩
      exact fun l hl => absurd hl not_mem_nil

theorem resetFqsnAt_wellNamed_foo : WellFormedFqsn localDomain (resetFqsnAt localDomain fooHttp) := by
  have horder : validateService localDomain 0 none fooHttp = .ok fooHttp := rfl
  exact (resetFqsnAt_wellNamed_iff (by decide) horder).mpr (by decide)

/-- A type of 63 bytes is accepted, and its label gets a length of 64: the name is read as one that ends in a
pointer. -/
theorem resetFqsnAt_long_type :
    let s : Service := { fooHttp with servtype := ⟨replicate 63 97, by decide⟩ }
    validateService localDomain 0 none s = .ok s ∧
      byte (resetFqsnAt localDomain s).fqsn (resetFqsnAt localDomain s).ptrname = 64 ∧
      dnameSize 300 (resetFqsnAt localDomain s).fqsn 0 = some 6 ∧
        ¬ WellFormedFqsn localDomain (resetFqsnAt localDomain s) := by
  intro s
  refine ⟨rfl, by decide +kernel, by decide +kernel, fun hwell => ?_⟩
  have hsecond := hwell.labels (underscore :: s.servtype.1) (by simp [Service.suffix, resetFqsnAt, putLabelAt])
  exact absurd hsecond.2 (by decide +kernel)

end names

end Mdns
