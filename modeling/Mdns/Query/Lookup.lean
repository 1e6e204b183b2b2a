import Mdns.Query.Run

/-!
# What the look-ups find

On a querier whose names are well formed the look-ups of `mdns_query.c` return, and what they find
is the first entry whose name says the same labels.
-/
namespace Mdns
open Lib List

variable {n k : Nat}

section labels
variable {p p1 p2 : Src} {off off1 off2 : Nat} {l l' l1 l2 : List UInt8} {ls ls1 ls2 : Labels}

theorem Expands.byte_ne_zero (h : Expands p off (l :: ls)) : byte p.mem off ≠ 0 := by
  cases h with
  | label hz _ _ => exact hz
  | jump _ hp _ => exact ne_zero_of_isPointer hp

theorem dnameLabelNext_comes (h : Expands p off (l :: l' :: ls)) :
    ∃ rest, Comes (fun fuel => dnameLabelNext fuel p off) (some (some rest)) ∧ Expands p rest (l' :: ls) := by
  obtain ⟨at', hlands, -, -, hrest⟩ := h.first
  refine ⟨at' + byte p.mem at' + 1, comes_bind_some hlands ?_, hrest⟩
  simp only [if_neg hrest.byte_ne_zero]
  exact comes_const _

theorem dnameLabelCmp_comes (h1 : Expands p1 off1 (l1 :: ls1)) (h2 : Expands p2 off2 (l2 :: ls2)) :
    Comes (fun fuel => dnameLabelCmp fuel p1 off1 p2 off2) (some (cmpBytes l1 l2)) := by
  obtain ⟨at1, hlands1, rfl, -, -⟩ := h1.first
  obtain ⟨at2, hlands2, rfl, -, -⟩ := h2.first
  exact comes_bind_some hlands1 (comes_bind_some hlands2 (comes_const _))

/-- The text that `dname_label_to_c` makes of a label. -/
def labelText (keep : Bool) (l : List UInt8) : List UInt8 := if keep then l else l.filter (· ≠ underscore)

theorem labelText_eq_self_iff (text : List UInt8) : labelText false text = text ↔ underscore ∉ text := by
  simp only [labelText, Bool.false_eq_true, if_false]
  rw [filter_eq_self]
  simp only [decide_eq_true_eq]
  exact ⟨fun h hmem => h _ hmem rfl, fun h c hc heq => h (heq ▸ hc)⟩

theorem dnameLabelToC_comes {p : Mem} (h : Expands (.packet p) off (l :: ls))
    (hl : l.length < maxLabelLen) (keep : Bool) :
    ∃ rest, Comes (fun fuel => dnameLabelToC fuel p off keep) (some (some (labelText keep l, rest))) ∧
      Expands (.packet p) rest ls := by
  obtain ⟨at', hlands, htext, hlen, hrest⟩ := h.first
  have hlen : l.length = byte p at' := hlen
  refine ⟨at' + 1 + byte p at', comes_bind_some hlands ?_, ?_⟩
  · simp only [if_neg (show ¬ byte p at' ≥ maxLabelLen by omega)]
    rw [htext]
    exact comes_const _
  · rw [Nat.add_right_comm]
    exact hrest

end labels

section text

theorem txtToCNcpy_comes (dlen : Nat) (p : Mem) (txt tlen : Nat) :
    ∃ text, Comes (fun fuel => txtToCNcpy fuel dlen p txt tlen) (some text) := by
  obtain ⟨text, ht⟩ := @loop_variant _ _ (txtBody p) (fun st => p.length - st.1) (by
    rintro ⟨at', left, room, dst⟩ st' h
    have hz : byte p at' ≠ 0 := by
      intro hz
      simp [txtBody, hz] at h
    have hin : at' < p.length := by
      by_contra hout
      exact hz (byte_eq_zero_of_length_le (Nat.not_lt.mp hout))
    have hnext : st'.1 = at' + byte p at' + 1 := by
      simp only [txtBody] at h
      split_ifs at h <;> cases h <;> rfl
    dsimp only
    omega) (txt, (tlen : Int), (dlen : Int) - 1, [])
  exact ⟨text, comes_loop ht⟩

theorem updateTxt_comes (i : ServiceInstance n k) (p : Mem) (r : Resource) :
    ∃ j ret, Comes (fun fuel => updateTxt fuel i p r) (some (j, ret)) := by
  obtain ⟨text, ht⟩ := txtToCNcpy_comes (maxKeyvalLen + 1) p r.rdata r.rdlength
  unfold updateTxt
  dsimp only
  split
  · exact ⟨_, _, comes_bind_some ht (comes_const _)⟩
  · exact ⟨_, _, comes_const _⟩

end text

section servinfo
variable {m : Message} {off : Nat} {i : ServiceInstance n k} {proto : List UInt8} {name : Mem}

def tcpLabel : List UInt8 := [95, 116, 99, 112]
def udpLabel : List UInt8 := [95, 117, 100, 112]

theorem expands_tcpLabel : Expands (.plain (dnamePutLabel tcpLabel)) 0 [tcpLabel] :=
  .label (by decide) (by decide) (.root (by decide))

theorem expands_udpLabel : Expands (.plain (dnamePutLabel udpLabel)) 0 [udpLabel] :=
  .label (by decide) (by decide) (.root (by decide))

/-- An instance name as `copy_servinfo` takes it apart. -/
structure InstanceName (N : Labels) (proto : List UInt8) : Prop where
  parts : ∃ inst type domain rest, N = inst :: type :: proto :: domain :: rest
  short : ∀ l ∈ N, l.length < maxLabelLen

theorem copyServinfo_parts {inst type domain : List UInt8} {rest : Labels}
    (hexp : Expands (.packet m.data) off (inst :: type :: proto :: domain :: rest)) (hinst : inst.length < maxLabelLen)
    (htype : type.length < maxLabelLen) (hdomain : domain.length < maxLabelLen)
    (hcopy : Comes (fun fuel => dnameCopy fuel m.data off) (some (name, 0))) :
    Comes (fun fuel => copyServinfo fuel i m off) (some (if proto = tcpLabel ∨ proto = udpLabel then
      some { i with fqsn := name, servname := inst, servtype := labelText false type,
                    proto := if proto = tcpLabel then .tcp else .udp, domain := labelText false domain }
      else none)) := by
  obtain ⟨typeAt, h1, hexp⟩ := dnameLabelToC_comes hexp hinst true
  obtain ⟨protoAt, h2, hexp⟩ := dnameLabelToC_comes hexp htype false
  have htcp := dnameLabelCmp_comes expands_tcpLabel hexp
  have hudp := dnameLabelCmp_comes expands_udpLabel hexp
  obtain ⟨domainAt, h3, hexp⟩ := dnameLabelNext_comes hexp
  obtain ⟨_, h4, -⟩ := dnameLabelToC_comes hexp hdomain false
  have htcp0 : cmpBytes tcpLabel proto = 0 ↔ proto = tcpLabel := cmpBytes_eq_zero.trans eq_comm
  have hudp0 : cmpBytes udpLabel proto = 0 ↔ proto = udpLabel := cmpBytes_eq_zero.trans eq_comm
  refine comes_bind_some hcopy
    (comes_bind_some h1 (comes_bind_some h2 (comes_bind_some htcp (comes_bind_some hudp ?_))))
  simp only [Ne, htcp0, hudp0, ← not_or]
  by_cases hp : proto = tcpLabel ∨ proto = udpLabel
  · simp only [hp, not_true_eq_false, if_false, if_true]
    exact comes_bind_some h3 (comes_bind_some h4 (comes_const _))
  · simp only [hp, not_false_eq_true, if_true, if_false]
    exact comes_const _

theorem copyServinfo_comes {N : Labels} (hN : InstanceName N proto)
    (hexp : Expands (.packet m.data) off N) (hcopy : Comes (fun fuel => dnameCopy fuel m.data off) (some (name, 0))) :
    if proto = tcpLabel ∨ proto = udpLabel then
      ∃ servname servtype proto domain, Comes (fun fuel => copyServinfo fuel i m off)
        (some (some { i with fqsn := name, servname, servtype, proto, domain }))
    else Comes (fun fuel => copyServinfo fuel i m off) (some none) := by
  obtain ⟨inst, type, domain, rest, rfl⟩ := hN.parts
  have h := copyServinfo_parts (i := i) hexp (hN.short inst (by simp)) (hN.short type (by simp))
    (hN.short domain (by simp)) hcopy
  split
  · next hp =>
    rw [if_pos hp] at h
    exact ⟨_, _, _, _, h⟩
  · next hp =>
    rw [if_neg hp] at h
    exact h

theorem copyServinfo_comes_failed (hcopy : Comes (fun fuel => dnameCopy fuel m.data off) (some (name, -1))) :
    Comes (fun fuel => copyServinfo fuel i m off) (some none) :=
  comes_bind_some hcopy (comes_const _)

end servinfo

section find
variable {q : Querier n k} {p : Src} {off : Nat} {N : Labels} {m : Message}

theorem findFirst_comes {α : Type} {f : Nat → α → Option Bool} {b : α → Bool} {l : List α}
    (h : ∀ x ∈ l, Comes (fun fuel => f fuel x) (some (b x))) :
    Comes (fun fuel => findFirst (f fuel) l) (some (l.find? b)) := by
  induction l with
  | nil => exact comes_const _
  | cons x l ih =>
    refine comes_bind_some (h x (mem_cons_self ..)) ?_
    cases hb : b x with
    | true =>
      rw [find?_cons_of_pos hb]
      exact comes_const _
    | false =>
      rw [find?_cons_of_neg (by simp [hb])]
      exact ih (fun y hy => h y (mem_cons_of_mem x hy))

theorem sameName_comes {name : Mem} (hw : WfName name) (hexp : Expands p off N) :
    Comes (fun fuel => sameName fuel name p off) (some (decide (plainLabels name = N))) := by
  have h := (dnameCmp_comes hw hexp).map (Option.map (· == 0))
  have heq : (cmpLabels (plainLabels name) N == 0) = decide (plainLabels name = N) :=
    decide_eq_decide.mpr cmpLabels_eq_zero
  rwa [Option.map_some, heq] at h

/-- The monitor of a service type, the slot of a name among those of a monitor, and the A record
of a host. -/
def Querier.monitorOf {H I : Type} (q : Querier n k H I) (type : Labels) : Option (Fin k) :=
  q.smonsActive.find? (fun c => plainLabels (q.smons c).fqst = type)

def Querier.slotOf (q : Querier n k) (c : Fin k) (name : Labels) : Option (Fin n) :=
  (q.smons c).sinsts.find? (fun s => plainLabels (q.sinsts s).fqsn = name)

def Querier.arecOf (q : Querier n k) (host : Labels) : Option (Fin n) :=
  q.arecsActive.find? (fun a => plainLabels (q.arecs a).fqdn = host)

structure Querier.WellNamed (q : Querier n k) : Prop where
  monitors : ∀ c ∈ q.smonsActive, WfName (q.smons c).fqst
  slots : ∀ c, ∀ s ∈ (q.smons c).sinsts, WfName (q.sinsts s).fqsn
  arecs : ∀ a ∈ q.arecsActive, WfName (q.arecs a).fqdn

theorem Querier.Sound.wellNamed {strict : Prop} (h : q.Sound strict)
    (hmon : ∀ c ∈ q.smonsActive, WfName (q.smons c).fqst) : q.WellNamed :=
  ⟨hmon, fun c s hs => h.named.slots s ((h.linked.members.mem_iff c s).mp hs).1, h.named.hosts⟩

variable (hw : q.WellNamed)
include hw

theorem findServiceMonitor_comes (hexp : Expands p off N) :
    Comes (fun fuel => findServiceMonitor fuel q p (some off)) (some (q.monitorOf N)) :=
  findFirst_comes (fun c hc => sameName_comes (hw.monitors c hc) hexp)

theorem findServiceInstance_comes {c : Fin k} (hexp : Expands (.packet m.data) off N) :
    Comes (fun fuel => findServiceInstance fuel q c m off) (some (q.slotOf c N)) :=
  findFirst_comes (fun s hs => sameName_comes (hw.slots c s hs) hexp)

theorem findArec_comes (hexp : Expands (.packet m.data) off N) :
    Comes (fun fuel => findArec fuel q m off) (some (q.arecOf N)) :=
  findFirst_comes (fun a ha => sameName_comes (hw.arecs a ha) hexp)

theorem sinstOf_comes {r : Resource} {l l' : List UInt8} {ls : Labels}
    (hexp : Expands (.packet m.data) r.name (l :: l' :: ls)) :
    Comes (fun fuel => sinstOf fuel q m r)
      (some ((q.monitorOf (l' :: ls)).bind (fun c => q.slotOf c (l :: l' :: ls)))) := by
  obtain ⟨rest, hnext, hrest⟩ := dnameLabelNext_comes hexp
  refine comes_bind_some hnext (comes_bind_some (findServiceMonitor_comes hw hrest) ?_)
  cases q.monitorOf (l' :: ls) with
  | none => exact comes_const _
  | some c => exact findServiceInstance_comes hw hexp

end find

end Mdns
