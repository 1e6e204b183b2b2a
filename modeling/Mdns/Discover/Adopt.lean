import Mdns.Discover.Packet
import Mdns.Query.Announce
import Mdns.Query.Farewell
import Mdns.Query.Truthful

/-!
# An announcement in an empty cache

The passes of `update_service_cache` over the announcement of a responder, in a cache that is empty
at the beginning. A service whose PTR record is read gets a slot if its labels are not too long for
`copy_servinfo`.
-/
namespace Mdns
open Lib List Option

variable {n k : Nat}

section labels
variable {p : Src} {mem : Mem} {off : Nat} {l : List UInt8} {ls : Labels}

theorem dnameLabelToC_long (h : Expands (.packet mem) off (l :: ls)) (hl : ¬ l.length < maxLabelLen) (keep : Bool) :
    Comes (fun fuel => dnameLabelToC fuel mem off keep) (some none) := by
  obtain ⟨at', hlands, -, hlen, -⟩ := h.first
  have hlen : l.length = byte mem at' := hlen
  refine comes_bind_some hlands ?_
  simp only [if_pos (show byte mem at' ≥ maxLabelLen by omega)]
  exact comes_const _

theorem dnameLabelToC_root (h : byte mem off = 0) (keep : Bool) :
    Comes (fun fuel => dnameLabelToC fuel mem off keep) (some (some ([], off + 1))) := by
  have hlands : Lands (.packet mem) off off := lands_self (show isPointer (byte mem off) = false by rw [h]; rfl)
  refine comes_bind_some hlands ?_
  have hpos : ¬ 0 ≥ maxLabelLen := by decide
  simp only [h, if_neg hpos]
  cases keep <;> exact comes_const _

theorem lands_at (h : At mem off (encodeName (l :: ls))) (hl : 0 < l.length ∧ l.length < 64) :
    Lands (.packet mem) off off ∧ byte mem off = l.length ∧ slice mem (off + 1) l.length = l ∧
      At mem (off + 1 + l.length) (encodeName ls) := by
  rw [encodeName_cons] at h
  have hbyte : byte mem off = l.length := by
    have hb : byte mem off = (UInt8.ofNat l.length).toNat := h.take.byte
    rw [hb, UInt8.toNat_ofNat', Nat.mod_eq_of_lt (by omega)]
  have hone : At mem off ([UInt8.ofNat l.length] ++ l) := h.take
  have hrest := h.drop
  rw [dnamePutLabel, length_cons, Nat.add_comm l.length 1, ← Nat.add_assoc] at hrest
  refine ⟨lands_self ?_, hbyte, hone.drop.slice, hrest⟩
  show isPointer (byte mem off) = false
  rw [hbyte]
  exact decide_eq_false (by omega)

theorem dnameLabelToC_at (h : At mem off (encodeName (l :: ls))) (hpos : 0 < l.length) (hl : l.length < maxLabelLen)
    (keep : Bool) : Comes (fun fuel => dnameLabelToC fuel mem off keep)
      (some (some (labelText keep l, off + 1 + l.length))) ∧
      At mem (off + 1 + l.length) (encodeName ls) := by
  have hmax : maxLabelLen = 63 := rfl
  obtain ⟨hlands, hbyte, htext, hrest⟩ := lands_at h ⟨hpos, by omega⟩
  refine ⟨comes_bind_some hlands ?_, hrest⟩
  simp only [hbyte, htext, if_neg (show ¬ l.length ≥ maxLabelLen by omega)]
  exact comes_const _

theorem dnameLabelNext_last (h : At mem off (encodeName [l])) (hl : 0 < l.length ∧ l.length < 64) :
    Comes (fun fuel => dnameLabelNext fuel (.packet mem) off) (some none) := by
  obtain ⟨hlands, hbyte, -, hrest⟩ := lands_at h hl
  refine comes_bind_some hlands ?_
  have hzero : byte mem (off + l.length + 1) = 0 := by
    rw [Nat.add_right_comm]
    exact hrest.byte
  have hbyte : byte (Src.packet mem).mem off = l.length := hbyte
  have hzero : byte (Src.packet mem).mem (off + l.length + 1) = 0 := hzero
  simp only [hbyte, hzero, if_true]
  exact comes_const _

theorem dnameLabelCmp_root {p1 : Src} {off1 : Nat} (h1 : Expands p1 off1 (l :: ls)) (h2 : byte mem off = 0) :
    ∃ c : Int, c ≠ 0 ∧ Comes (fun fuel => dnameLabelCmp fuel p1 off1 (.packet mem) off) (some c) := by
  obtain ⟨at1, hlands1, htext, hlen, -⟩ := h1.first
  have hlands2 : Lands (.packet mem) off off := lands_self (show isPointer (byte mem off) = false by rw [h2]; rfl)
  refine ⟨_, ?_, comes_bind_some hlands1 (comes_bind_some hlands2 (comes_const _))⟩
  have hempty : slice (Src.packet mem).mem (off + 1) (byte (Src.packet mem).mem off) = [] := by
    show slice mem (off + 1) (byte mem off) = []
    rw [h2]
    rfl
  rw [labelCmpAt, hempty, ← htext, Ne, cmpBytes_eq_zero]
  intro hnil
  exact absurd (h1.length_pos l (mem_cons_self ..)).1 (by rw [hnil]; decide)

end labels

section servinfo
variable {m : Message} {off : Nat} {i : ServiceInstance n k} {inst type proto domain : List UInt8} {name : Mem}

theorem copyServinfo_service (hat : At m.data off (encodeName (inst :: type :: proto :: wireLabels [domain])))
    (hsizes : ∀ l ∈ inst :: type :: proto :: wireLabels [domain], 0 < l.length ∧ l.length < 64)
    (hproto : proto = tcpLabel ∨ proto = udpLabel)
    (hcopy : Comes (fun fuel => dnameCopy fuel m.data off) (some (name, 0))) :
    Comes (fun fuel => copyServinfo fuel i m off)
      (some (if inst.length < maxLabelLen ∧ type.length < maxLabelLen ∧ domain ≠ [] ∧ domain.length < maxLabelLen then
        some { i with fqsn := name, servname := inst, servtype := labelText false type,
                      proto := if proto = tcpLabel then .tcp else .udp, domain := labelText false domain }
        else none)) := by
  have hexp : Expands (.packet m.data) off _ := expands_encodeName hsizes hat
  obtain ⟨hinst, hsizes'⟩ := forall_mem_cons.mp hsizes
  obtain ⟨htype, hsizes''⟩ := forall_mem_cons.mp hsizes'
  have hproto' := hsizes'' proto (mem_cons_self ..)
  -- the checks in the order in which they are made
  by_cases h1 : inst.length < maxLabelLen
  swap
  · rw [if_neg (fun h => h1 h.1)]
    exact comes_bind_some hcopy (comes_bind_some (dnameLabelToC_long hexp h1 true) (comes_const _))
  obtain ⟨hget1, hat⟩ := dnameLabelToC_at hat hinst.1 h1 true
  by_cases h2 : type.length < maxLabelLen
  swap
  · rw [if_neg (fun h => h2 h.2.1)]
    have hexp2 : Expands (.packet m.data) _ _ := expands_encodeName hsizes' hat
    exact comes_bind_some hcopy
      (comes_bind_some hget1 (comes_bind_some (dnameLabelToC_long hexp2 h2 false) (comes_const _)))
  obtain ⟨hget2, hat⟩ := dnameLabelToC_at hat htype.1 h2 false
  have hexp3 : Expands (.packet m.data) _ _ := expands_encodeName hsizes'' hat
  have htcp := dnameLabelCmp_comes expands_tcpLabel hexp3
  have hudp := dnameLabelCmp_comes expands_udpLabel hexp3
  have hknown : ¬ (cmpBytes tcpLabel proto ≠ 0 ∧ cmpBytes udpLabel proto ≠ 0) := by
    rintro ⟨hne, hne'⟩
    rcases hproto with rfl | rfl
    · exact hne (cmpBytes_self _)
    · exact hne' (cmpBytes_self _)
  by_cases h3 : domain = []
  · rw [if_neg (fun h => h.2.2.1 h3)]
    subst h3
    refine comes_bind_some hcopy
      (comes_bind_some hget1 (comes_bind_some hget2 (comes_bind_some htcp (comes_bind_some hudp ?_))))
    simp only [if_neg hknown]
    exact comes_bind_some (dnameLabelNext_last hat hproto') (comes_const _)
  rw [wireLabels_cons h3] at hexp hexp3
  by_cases h4 : domain.length < maxLabelLen
  · rw [if_pos ⟨h1, h2, h3, h4⟩]
    have hparts := copyServinfo_parts (i := i) hexp h1 h2 h4 hcopy
    rwa [if_pos hproto] at hparts
  · rw [if_neg (fun h => h4 h.2.2.2)]
    obtain ⟨domainAt, hnext, hexp4⟩ := dnameLabelNext_comes hexp3
    refine comes_bind_some hcopy
      (comes_bind_some hget1 (comes_bind_some hget2 (comes_bind_some htcp (comes_bind_some hudp ?_))))
    simp only [if_neg hknown]
    exact comes_bind_some hnext (comes_bind_some (dnameLabelToC_long hexp4 h4 false) (comes_const _))

end servinfo

section stock
variable {q q' : Querier n k} {domain : CString} {mon : Labels → Option (Fin k)} {host : Labels}
  {xs : List (NamedService × Fin n)} {kv : Labels → Option (List UInt8)} {room : Labels → Option (Fin n)}
  {s : NamedService}

structure Querier.Firm (q : Querier n k) : Prop where
  linked : q.reg.Linked q.smonsActive
  named : q.reg.Named WfName
  types : q.Typed

theorem Querier.Firm.wellNamed (h : q.Firm) : q.WellNamed :=
  ⟨h.types, fun c s hs => h.named.slots s ((h.linked.members.mem_iff c s).mp hs).1, h.named.hosts⟩

theorem Querier.Firm.ptrStep_advances (hq : q.Firm) {elapsed : Nat} {m m' : Message} {r : Resource}
    (h : Comes (fun fuel => ptrStep fuel elapsed (q, m) r) (some (q', m'))) :
    Advances (policy False) q.smonsActive q q' := by
  obtain ⟨fuel, hf⟩ := h
  exact (takesPtr_of_ptrStep (hf fuel le_rfl)).advances hq.linked hq.named

theorem Advances.firm (h : Advances (policy False) q.smonsActive q q') (hq : q.Firm) : q'.Firm := by
  refine ⟨?_, h.moves.named hq.named, ?_⟩
  · rw [h.active]
    exact h.moves.linked hq.linked (List.Subset.refl _)
  · intro c hc
    rw [h.active] at hc
    rw [h.fqst]
    exact hq.types c hc

/-- A service that `copy_servinfo` can take apart. -/
def NamedService.Readable (domain : CString) (s : NamedService) : Prop :=
  s.service.servname.1.length < maxLabelLen ∧ (underscore :: s.service.servtype.1).length < maxLabelLen ∧
    domain.1 ≠ [] ∧ domain.1.length < maxLabelLen

instance (domain : CString) (s : NamedService) : Decidable (s.Readable domain) :=
  inferInstanceAs (Decidable (_ ∧ _ ∧ _ ∧ _))

/-- What the querier makes of a service, with the address and the text that it has for it. -/
def NamedService.reading (domain : CString) (s : NamedService) (ipaddr : Nat)
    (keyvals : Option (List UInt8)) : Advert :=
  ⟨s.service.servname.1, labelText false s.service.servtype.1, s.service.proto,
    labelText false domain.1, ipaddr, keyvals⟩

/-- A service of a monitored type, under its name on the wire, which is not that of the host. -/
structure Posted (domain : CString) (mon : Labels → Option (Fin k)) (host : Labels) (s : NamedService) : Prop where
  type : s.ptr.labels = s.service.kind domain
  name : s.fqsn.labels = s.service.name domain
  watched : (mon s.ptr.labels).isSome
  apart : s.fqsn.labels ≠ host

theorem Posted.labels (h : Posted domain mon host s) :
    s.fqsn.labels = s.service.servname.1 :: s.ptr.labels := by rw [h.name, Service.name, h.type]

structure Waiting (domain : CString) (s : NamedService) (keyvals : Option (List UInt8)) (lodging : Option (Fin n))
    (i : ServiceInstance n k) : Prop where
  advert : i.advert = s.reading domain 0 keyvals
  state : i.state = .init
  arec : i.arec = lodging
  hasSrv : i.hasSrv = lodging.isSome

/-- The cache has these services in these slots, with these texts and A records. A slot that is used for
anything else has the name of the host. -/
structure Stock (domain : CString) (mon : Labels → Option (Fin k)) (host : Labels) (xs : List (NamedService × Fin n))
    (kv : Labels → Option (List UInt8)) (room : Labels → Option (Fin n)) (q : Querier n k) : Prop where
  firm : q.Firm
  monitors : ∀ T, q.monitorOf T = mon T
  posted : ∀ x ∈ xs, Posted domain mon host x.1
  distinct : (xs.map (·.1.fqsn.labels)).Nodup
  nodup : (xs.map Prod.snd).Nodup
  used : ∀ x ∈ xs, x.2 ∉ q.sinstsFree
  name : ∀ x ∈ xs, plainLabels (q.sinsts x.2).fqsn = x.1.fqsn.labels
  owner : ∀ x ∈ xs, (q.sinsts x.2).smon = mon x.1.ptr.labels
  entry : ∀ x ∈ xs, Waiting domain x.1 (kv x.1.fqsn.labels) (room x.1.fqsn.labels) (q.sinsts x.2)
  others : ∀ t, t ∉ q.sinstsFree → t ∈ xs.map Prod.snd ∨
    (plainLabels (q.sinsts t).fqsn = host ∧ (q.sinsts t).arec = none)

def slotIn (xs : List (NamedService × Fin n)) (name : Labels) : Option (Fin n) :=
  (xs.find? (·.1.fqsn.labels = name)).map Prod.snd

theorem mem_of_slotIn {name : Labels} {t : Fin n} (h : slotIn xs name = some t) :
    ∃ x ∈ xs, x.1.fqsn.labels = name ∧ x.2 = t := by
  obtain ⟨x, hx, rfl⟩ := map_eq_some_iff.mp h
  have hlabels := find?_some hx
  rw [decide_eq_true_eq] at hlabels
  exact ⟨x, mem_of_find?_eq_some hx, hlabels, rfl⟩

theorem Stock.slot_iff (h : Stock domain mon host xs kv room q) {N : Labels} (hN : N ≠ host) {t : Fin n}
    (ht : t ∉ q.sinstsFree) : plainLabels (q.sinsts t).fqsn = N ↔ slotIn xs N = some t := by
  constructor
  · intro hname
    rcases h.others t ht with hmem | ⟨hhost, -⟩
    · obtain ⟨x, hx, rfl⟩ := List.mem_map.mp hmem
      have hlabels : x.1.fqsn.labels = N := (h.name x hx).symm.trans hname
      have hsome : (slotIn xs N).isSome := by
        rw [slotIn, isSome_map]
        exact find?_isSome.mpr ⟨x, hx, decide_eq_true hlabels⟩
      obtain ⟨t, hslot⟩ := isSome_iff_exists.mp hsome
      obtain ⟨y, hy, hylabels, rfl⟩ := mem_of_slotIn hslot
      rw [hslot, inj_on_of_nodup_map h.distinct hy hx (hylabels.trans hlabels.symm)]
    · exact absurd (hname.symm.trans hhost) hN
  · intro hslot
    obtain ⟨x, hx, hlabels, rfl⟩ := mem_of_slotIn hslot
    rw [h.name x hx, hlabels]

theorem Stock.slotOf (h : Stock domain mon host xs kv room q) (hs : Posted domain mon host s) {c : Fin k}
    (hc : mon s.ptr.labels = some c) : q.slotOf c s.fqsn.labels = slotIn xs s.fqsn.labels := by
  cases hfind : q.slotOf c s.fqsn.labels with
  | some t =>
    have hmem := mem_of_find?_eq_some hfind
    have hused := ((h.firm.linked.members.mem_iff c t).mp hmem).1
    have hname := find?_some hfind
    rw [decide_eq_true_eq] at hname
    exact ((h.slot_iff hs.apart hused).mp hname).symm
  | none =>
    refine (eq_none_iff_forall_ne_some.mpr ?_).symm
    intro t ht
    obtain ⟨x, hx, hlabels, rfl⟩ := mem_of_slotIn ht
    have htype : x.1.ptr.labels = s.ptr.labels := by
      rw [(h.posted x hx).labels, hs.labels] at hlabels
      exact (List.cons.inj hlabels).2
    have howner : (q.sinsts x.2).smon = some c := by rw [h.owner x hx, htype, hc]
    have hmem : x.2 ∈ (q.smons c).sinsts := (h.firm.linked.members.mem_iff c x.2).mpr ⟨h.used x hx, howner⟩
    exact find?_eq_none.mp hfind x.2 hmem (decide_eq_true ((h.name x hx).trans hlabels))

theorem Stock.sinstOf (h : Stock domain mon host xs kv room q) (hs : Posted domain mon host s) {m : Message}
    {r : Resource} (hexp : Expands (.packet m.data) r.name s.fqsn.labels) :
    Comes (fun fuel => sinstOf fuel q m r) (some (slotIn xs s.fqsn.labels)) := by
  obtain ⟨c, hc⟩ := isSome_iff_exists.mp hs.watched
  have hptr := hs.type
  rw [Service.kind_eq] at hptr
  have hslot := h.slotOf hs hc
  rw [hs.labels, hptr] at hexp
  have hcomes := sinstOf_comes h.firm.wellNamed hexp
  rw [← hptr, h.monitors, hc, bind_some, ← hs.labels, hslot] at hcomes
  exact hcomes

theorem Stock.change (h : Stock domain mon host xs kv room q) {x : NamedService × Fin n} (hx : x ∈ xs)
    (hadv : Advances (policy False) q.smonsActive q q') (hfree : q'.sinstsFree = q.sinstsFree)
    (hothers : ∀ t, t ≠ x.2 → q'.sinsts t = q.sinsts t) (hname : (q'.sinsts x.2).fqsn = (q.sinsts x.2).fqsn)
    (howner : (q'.sinsts x.2).smon = (q.sinsts x.2).smon) {kv' : Labels → Option (List UInt8)}
    {room' : Labels → Option (Fin n)}
    (hself : Waiting domain x.1 (kv' x.1.fqsn.labels) (room' x.1.fqsn.labels) (q'.sinsts x.2))
    (hkv : ∀ N, N ≠ x.1.fqsn.labels → kv' N = kv N) (hroom : ∀ N, N ≠ x.1.fqsn.labels → room' N = room N) :
    Stock domain mon host xs kv' room' q' := by
  have hslot : ∀ y ∈ xs, y ≠ x → y.2 ≠ x.2 := fun y hy hne heq => hne (inj_on_of_nodup_map h.nodup hy hx heq)
  have hlabels : ∀ y ∈ xs, y ≠ x → y.1.fqsn.labels ≠ x.1.fqsn.labels :=
    fun y hy hne heq => hne (inj_on_of_nodup_map h.distinct hy hx heq)
  refine ⟨hadv.firm h.firm, fun T => (hadv.monitorOf T).trans (h.monitors T), h.posted, h.distinct,
    h.nodup, ?_, ?_, ?_, ?_, ?_⟩
  · intro y hy
    rw [hfree]
    exact h.used y hy
  · intro y hy
    by_cases hyx : y = x
    · rw [hyx, hname, h.name x hx]
    · rw [hothers y.2 (hslot y hy hyx), h.name y hy]
  · intro y hy
    by_cases hyx : y = x
    · rw [hyx, howner, h.owner x hx]
    · rw [hothers y.2 (hslot y hy hyx), h.owner y hy]
  · intro y hy
    by_cases hyx : y = x
    · rw [hyx]
      exact hself
    · rw [hothers y.2 (hslot y hy hyx), hkv _ (hlabels y hy hyx), hroom _ (hlabels y hy hyx)]
      exact h.entry y hy
  · intro t ht
    rw [hfree] at ht
    by_cases htx : t = x.2
    · exact .inl (List.mem_map.mpr ⟨x, hx, htx.symm⟩)
    · rw [hothers t htx]
      exact h.others t ht

theorem Stock.mono (h : Stock domain mon host xs kv room q) {N : Labels} (hN : slotIn xs N = none)
    {kv' : Labels → Option (List UInt8)} {room' : Labels → Option (Fin n)} (hkv : ∀ N', N' ≠ N → kv' N' = kv N')
    (hroom : ∀ N', N' ≠ N → room' N' = room N') : Stock domain mon host xs kv' room' q := by
  refine ⟨h.firm, h.monitors, h.posted, h.distinct, h.nodup, h.used, h.name, h.owner, ?_, h.others⟩
  intro x hx
  have hne : x.1.fqsn.labels ≠ N := by
    rw [slotIn, map_eq_none_iff, find?_eq_none] at hN
    exact fun heq => hN x hx (decide_eq_true heq)
  rw [hkv _ hne, hroom _ hne]
  exact h.entry x hx

theorem Stock.carry (h : Stock domain mon host xs kv room q) (hadv : Advances (policy False) q.smonsActive q q')
    (hkept : ∀ x ∈ xs, q'.sinsts x.2 = q.sinsts x.2 ∧ x.2 ∉ q'.sinstsFree)
    (hothers : ∀ t, t ∉ q'.sinstsFree →
      t ∈ xs.map Prod.snd ∨ (plainLabels (q'.sinsts t).fqsn = host ∧ (q'.sinsts t).arec = none)) :
    Stock domain mon host xs kv room q' := by
  refine ⟨hadv.firm h.firm, fun T => (hadv.monitorOf T).trans (h.monitors T), h.posted, h.distinct, h.nodup,
    fun x hx => (hkept x hx).2, ?_, ?_, ?_, hothers⟩
  · intro x hx
    rw [(hkept x hx).1, h.name x hx]
  · intro x hx
    rw [(hkept x hx).1, h.owner x hx]
  · intro x hx
    rw [(hkept x hx).1]
    exact h.entry x hx

theorem Stock.clear (h : Stock domain mon host xs kv room q) {t : Fin n} (ht : t ∈ q.sinstsFree)
    {j : ServiceInstance n k}
    (hadv : Advances (policy False) q.smonsActive q (q.setSinst t j)) :
    Stock domain mon host xs kv room (q.setSinst t j) := by
  have hkept : ∀ u, u ∉ q.sinstsFree → (q.setSinst t j).sinsts u = q.sinsts u := by
    intro u hu
    refine setSinst_others q t j ?_
    rintro rfl
    exact hu ht
  refine h.carry hadv (fun x hx => ⟨hkept _ (h.used x hx), h.used x hx⟩) ?_
  intro u hu
  rw [hkept u hu]
  exact h.others u hu

theorem Stock.renew (h : Stock domain mon host xs kv room q) {t : Fin n} {j : ServiceInstance n k}
    (hname : plainLabels (q.sinsts t).fqsn = host) (hfqsn : j.fqsn = (q.sinsts t).fqsn)
    (harec : j.arec = (q.sinsts t).arec) (hadv : Advances (policy False) q.smonsActive q (q.setSinst t j)) :
    Stock domain mon host xs kv room (q.setSinst t j) := by
  have hkept : ∀ x ∈ xs, x.2 ≠ t := by
    rintro x hx rfl
    exact (h.posted x hx).apart ((h.name x hx).symm.trans hname)
  refine h.carry hadv (fun x hx => ⟨setSinst_others q t _ (hkept x hx), h.used x hx⟩) ?_
  intro u hu
  have hothers := h.others u hu
  by_cases hut : u = t
  · rw [hut] at hothers ⊢
    rw [setSinst_self, hfqsn, harec]
    exact hothers
  · rw [setSinst_others q t _ hut]
    exact hothers

theorem Stock.house {t : Fin n} {free : List (Fin n)} {j : ServiceInstance n k}
    (h : Stock domain mon host xs kv room q) (hadv : Advances (policy False) q.smonsActive q q')
    (hfree : q.sinstsFree = t :: free) (hfree' : q'.sinstsFree = free)
    (hsinsts : q'.sinsts = Function.update q.sinsts t j) (hname : plainLabels j.fqsn = host) (harec : j.arec = none) :
    Stock domain mon host xs kv room q' := by
  refine h.carry hadv ?_ ?_
  · intro x hx
    have hused := h.used x hx
    rw [hfree, mem_cons, not_or] at hused
    rw [hsinsts, hfree']
    exact ⟨Function.update_of_ne hused.1 j q.sinsts, hused.2⟩
  · intro u hu
    by_cases hut : u = t
    · rw [hsinsts, hut, Function.update_self]
      exact .inr ⟨hname, harec⟩
    · rw [hsinsts, Function.update_of_ne hut]
      refine h.others u ?_
      rw [hfree, mem_cons, not_or]
      exact ⟨hut, hfree' ▸ hu⟩

theorem Stock.adopt {t : Fin n} {free : List (Fin n)} {j : ServiceInstance n k} {s : NamedService}
    (h : Stock domain mon host xs kv room q) (hadv : Advances (policy False) q.smonsActive q q')
    (hfree : q.sinstsFree = t :: free) (hfree' : q'.sinstsFree = free)
    (hsinsts : q'.sinsts = Function.update q.sinsts t j)
    (hs : Posted domain mon host s) (hnew : s.fqsn.labels ∉ xs.map (·.1.fqsn.labels))
    (hname : plainLabels j.fqsn = s.fqsn.labels) (howner : j.smon = mon s.ptr.labels)
    (hentry : Waiting domain s (kv s.fqsn.labels) (room s.fqsn.labels) j) :
    Stock domain mon host ((s, t) :: xs) kv room q' := by
  have hself : q'.sinsts t = j := by rw [hsinsts, Function.update_self]
  have hkept : ∀ u, u ≠ t → q'.sinsts u = q.sinsts u := by
    intro u hu
    rw [hsinsts, Function.update_of_ne hu]
  have hfresh : ∀ x ∈ xs, x.2 ≠ t := by
    rintro x hx rfl
    exact h.used x hx (by rw [hfree]; exact mem_cons_self ..)
  have hnodup : (t :: free).Nodup := by rw [← hfree]; exact h.firm.linked.freeNodup
  refine ⟨hadv.firm h.firm, fun T => (hadv.monitorOf T).trans (h.monitors T), forall_mem_cons.mpr ⟨hs, h.posted⟩,
    nodup_cons.mpr ⟨hnew, h.distinct⟩, nodup_cons.mpr ⟨?_, h.nodup⟩, ?_, ?_, ?_, ?_, ?_⟩
  · intro hmem
    obtain ⟨x, hx, heq⟩ := List.mem_map.mp hmem
    exact hfresh x hx heq
  · rw [hfree']
    refine forall_mem_cons.mpr ⟨(nodup_cons.mp hnodup).1, ?_⟩
    intro x hx hmem
    exact h.used x hx (by rw [hfree]; exact mem_cons_of_mem t hmem)
  · refine forall_mem_cons.mpr ⟨by rw [hself]; exact hname, ?_⟩
    intro x hx
    rw [hkept _ (hfresh x hx), h.name x hx]
  · refine forall_mem_cons.mpr ⟨by rw [hself]; exact howner, ?_⟩
    intro x hx
    rw [hkept _ (hfresh x hx), h.owner x hx]
  · refine forall_mem_cons.mpr ⟨by rw [hself]; exact hentry, ?_⟩
    intro x hx
    rw [hkept _ (hfresh x hx)]
    exact h.entry x hx
  · intro u hu
    by_cases hut : u = t
    · exact .inl (by rw [hut]; exact mem_cons_self ..)
    · have hused : u ∉ q.sinstsFree := by
        rw [hfree, mem_cons, not_or]
        exact ⟨hut, by rw [hfree'] at hu; exact hu⟩
      rw [hkept u hut]
      exact (h.others u hused).imp_left (mem_cons_of_mem t)

end stock

section pointers
variable {q : Querier n k} {m : Message} {domain : CString} {mon : Labels → Option (Fin k)} {host : Labels}
  {xs : List (NamedService × Fin n)} {s : NamedService} {r : Resource}

/-- What is left as it was by the records that are not SRV or A records. -/
structure SameHosts (q q' : Querier n k) : Prop where
  arecs : q'.arecs = q.arecs
  arecsActive : q'.arecsActive = q.arecsActive
  arecsFree : q'.arecsFree = q.arecsFree

theorem SameHosts.trans {q₁ q₂ : Querier n k} (h : SameHosts q q₁) (h' : SameHosts q₁ q₂) : SameHosts q q₂ :=
  ⟨h'.arecs.trans h.arecs, h'.arecsActive.trans h.arecsActive, h'.arecsFree.trans h.arecsFree⟩

theorem Posted.copyServinfo (hs : Posted domain mon host s) {off : Nat} {i : ServiceInstance n k}
    (hat : At m.data off (encodeName s.fqsn.labels)) :
    Comes (fun fuel => copyServinfo fuel i m off) (some (if s.Readable domain then
      some { i with fqsn := encodeName s.fqsn.labels, servname := s.service.servname.1,
                    servtype := labelText false s.service.servtype.1, proto := s.service.proto,
                    domain := labelText false domain.1 } else none)) := by
  have hlabels : s.fqsn.labels = s.service.servname.1 :: (underscore :: s.service.servtype.1) ::
    protoLabel s.service.proto ::
      wireLabels [domain.1] := by rw [hs.name, Service.name, Service.kind_eq]
  have hcopy := dnameCopy_comes s.fqsn.sizes hat s.fqsn.fits
  have hsizes := s.fqsn.sizes
  have hproto : protoLabel s.service.proto = tcpLabel ∨ protoLabel s.service.proto = udpLabel := by
    cases s.service.proto
    · exact .inl rfl
    · exact .inr rfl
  rw [hlabels] at hat hsizes
  have hcomes := copyServinfo_service (i := i) hat hsizes hproto hcopy
  have htype : labelText false (underscore :: s.service.servtype.1) = labelText false s.service.servtype.1 := by
    simp [labelText]
  have hback : (if protoLabel s.service.proto = tcpLabel then Proto.tcp else Proto.udp) = s.service.proto := by
    cases s.service.proto <;> decide
  rw [htype, hback] at hcomes
  exact hcomes

theorem Stock.ptrStep (elapsed : Nat) (h : Stock domain mon host xs (fun _ => none) (fun _ => none) q)
    (hs : Posted domain mon host s) (hnew : s.fqsn.labels ∉ xs.map (·.1.fqsn.labels)) (hroom : 0 < q.sinstsFree.length)
    (hr : RecordOf m.data (s.pointer 255) r) :
    ∃ q' ys, Comes (fun fuel => ptrStep fuel elapsed (q, m) r) (some (q', m)) ∧
      Stock domain mon host (ys ++ xs) (fun _ => none) (fun _ => none) q' ∧
        ys.map Prod.fst = [s].filter (·.Readable domain) ∧
      SameHosts q q' ∧ q'.log = q.log ∧ q.sinstsFree.length ≤ q'.sinstsFree.length + 1 := by
  obtain ⟨c, hc⟩ := isSome_iff_exists.mp hs.watched
  obtain ⟨t, free, hfree⟩ := exists_cons_of_length_pos hroom
  have hslot : q.slotOf c s.fqsn.labels = none := by
    rw [h.slotOf hs hc, slotIn, map_eq_none_iff, find?_eq_none]
    intro x hx heq
    exact hnew (List.mem_map.mpr ⟨x, hx, of_decide_eq_true heq⟩)
  have hinfo := hs.copyServinfo (n := n) (i := { smon := some c }) hr.rdata
  have hpoints : Expands (.packet m.data) r.rdata s.fqsn.labels := expands_encodeName s.fqsn.sizes hr.rdata
  have hstep := ptrStep_comes elapsed h.firm.wellNamed hr.name hpoints ((h.monitors _).trans hc) hslot hfree hinfo
  by_cases hread : s.Readable domain
  · rw [if_pos hread, map_some] at hstep
    refine ⟨_, [(s, t)], hstep, ?_, by simp [hread], ⟨rfl, rfl, rfl⟩, rfl, ?_⟩
    · refine h.adopt (h.firm.ptrStep_advances hstep) hfree rfl rfl hs hnew ?_ hc.symm ⟨rfl, rfl, rfl, rfl⟩
      exact plainLabels_eq (expands_encodeName s.fqsn.sizes ⟨[], [], by simp, rfl⟩)
    · rw [hfree]
      exact le_rfl
  · rw [if_neg hread, map_some] at hstep
    refine ⟨_, [], hstep, ?_, by simp [hread], ⟨rfl, rfl, rfl⟩, rfl, Nat.le_succ _⟩
    exact h.clear (by rw [hfree]; exact mem_cons_self ..) (h.firm.ptrStep_advances hstep)

theorem Stock.ptrs (elapsed : Nat) {ss : List NamedService} {rs : List Resource}
    (hrs : Forall₂ (fun s r => RecordOf m.data (s.pointer 255) r) ss rs)
    (h : Stock domain mon host xs (fun _ => none) (fun _ => none) q) (hss : ∀ s ∈ ss, Posted domain mon host s)
    (hnew : (ss.map (·.fqsn.labels) ++ xs.map (·.1.fqsn.labels)).Nodup) (hroom : ss.length ≤ q.sinstsFree.length) :
    ∃ q' ys, Comes (fun fuel => runAll (Mdns.ptrStep fuel elapsed) rs (q, m)) (some (q', m)) ∧
      Stock domain mon host ys (fun _ => none) (fun _ => none) q' ∧
      ys.map Prod.fst = (ss.filter (·.Readable domain)).reverse ++ xs.map Prod.fst ∧ SameHosts q q' ∧
        q'.log = q.log := by
  induction hrs generalizing q xs with
  | nil => exact ⟨q, xs, comes_const _, h, rfl, ⟨rfl, rfl, rfl⟩, rfl⟩
  | @cons s r ss rs hr _ ih =>
    obtain ⟨hs, hss⟩ := forall_mem_cons.mp hss
    rw [map_cons, cons_append, nodup_cons, mem_append, not_or] at hnew
    rw [length_cons] at hroom
    obtain ⟨q₁, ys, hstep, h₁, hys, hsame, hlog, hfree⟩ := h.ptrStep elapsed hs hnew.1.2 (by omega) hr
    have hmem : ∀ y ∈ ys, y.1 = s := by
      intro y hy
      have hy' : y.1 ∈ ys.map Prod.fst := List.mem_map_of_mem hy
      rw [hys] at hy'
      exact mem_singleton.mp (mem_of_mem_filter hy')
    have hnew₁ : (ss.map (·.fqsn.labels) ++ (ys ++ xs).map (·.1.fqsn.labels)).Nodup := by
      refine nodup_append.mpr ⟨(nodup_append.mp hnew.2).1, h₁.distinct, ?_⟩
      rintro N hN N' hN' rfl
      rw [map_append, mem_append] at hN'
      rcases hN' with hN' | hN'
      · obtain ⟨y, hy, hlabels⟩ := List.mem_map.mp hN'
        rw [hmem y hy] at hlabels
        exact hnew.1.1 (by rw [hlabels]; exact hN)
      · exact (nodup_append.mp hnew.2).2.2 N hN N hN' rfl
    obtain ⟨q', zs, hrun, h', hzs, hsame', hlog'⟩ := ih h₁ hss hnew₁ (by omega)
    refine ⟨q', zs, comes_runAll_cons hstep hrun, h', ?_, hsame.trans hsame', hlog'.trans hlog⟩
    have hone : ys.map Prod.fst = ([s].filter (·.Readable domain)).reverse := by
      rw [hys]
      by_cases hread : s.Readable domain <;> simp [hread]
    rw [hzs, map_append, hone, ← append_assoc, ← reverse_append, ← filter_append]
    rfl

end pointers

section reverse
variable {q : Querier n k} {m : Message} {domain : CString} {mon : Labels → Option (Fin k)} {host T : Labels}
  {xs : List (NamedService × Fin n)} {r : Resource} {i : ServiceInstance n k} {rs : List Resource}

def Foreign (p : Mem) (rs : List Resource) (host : Labels) : Prop :=
  ∀ r ∈ rs, ∃ N, Expands (.packet p) r.name N ∧ N ≠ host

theorem takeTxts_foreign {p : Mem} (hi : WfName i.fqsn) (hrs : Foreign p rs (plainLabels i.fqsn)) :
    Comes (fun fuel => takeTxts fuel p rs i) (some (i, rs)) := by
  induction rs with
  | nil => exact comes_const _
  | cons r rs ih =>
    obtain ⟨⟨N, hN, hne⟩, hrs⟩ := forall_mem_cons.mp hrs
    refine comes_bind_some (dnameCmp_comes hN hi) ?_
    simp only [cmpLabels_eq_zero, hne, false_and, if_false]
    exact comes_bind_some (ih hrs) (comes_const _)

theorem takeSrvs_foreign {p : Mem} {target : Option Mem} (hi : WfName i.fqsn)
    (hrs : Foreign p rs (plainLabels i.fqsn)) :
    Comes (fun fuel => takeSrvs fuel p rs i target) (some (i, target, rs)) := by
  induction rs with
  | nil => exact comes_const _
  | cons r rs ih =>
    obtain ⟨⟨N, hN, hne⟩, hrs⟩ := forall_mem_cons.mp hrs
    refine comes_bind_some (dnameCmp_comes hN hi) ?_
    simp only [Ne, cmpLabels_eq_zero, hne, not_false_eq_true, true_or, if_true]
    exact comes_bind_some (ih hrs) (comes_const _)

theorem overflow_comes {c : Fin k} {info : Option (ServiceInstance n k)}
    (hpoints : Expands (.packet m.data) r.rdata host)
    (htxts : Foreign m.data m.txts host) (hsrvs : Foreign m.data m.srvs host)
    (hinfo : Comes (fun fuel => copyServinfo fuel { smon := some c } m r.rdata) (some info)) :
    ∃ q', Comes (fun fuel => overflow fuel q m c r) (some (q', m)) := by
  cases info with
  | none => exact ⟨q, comes_bind_some hinfo (comes_const _)⟩
  | some i =>
    obtain ⟨fuel, hf⟩ := hinfo
    obtain ⟨name, _, _, _, _, hcopy, rfl⟩ := copyServinfo_eq_some (hf fuel le_rfl)
    have hname : plainLabels name = host := (expands_of_dnameCopy hcopy).unique hpoints
    have hwf := wfName_of_dnameCopy hcopy
    rw [← hname] at htxts hsrvs
    exact ⟨_, comes_bind_some ⟨fuel, hf⟩ (comes_bind_some (takeTxts_foreign hwf htxts)
      (comes_bind_some (takeSrvs_foreign hwf hsrvs) (comes_bind_some (comes_const _) (comes_const _))))⟩

/-- The PTR record of the address, if its name is monitored. Its host has the name of no service, but it may take a
slot or, if there is none, be reported for the lack of it. -/
theorem Stock.reverseStep (elapsed : Nat) (h : Stock domain mon host xs (fun _ => none) (fun _ => none) q)
    (htype : Expands (.packet m.data) r.name T) (hpoints : Expands (.packet m.data) r.rdata host) (httl : r.ttl ≠ 0)
    (htxts : Foreign m.data m.txts host) (hsrvs : Foreign m.data m.srvs host) :
    ∃ o, Comes (fun fuel => Mdns.ptrStep fuel elapsed (q, m) r) o ∧
      ((∀ c : Fin k, ∃ info,
        Comes (fun fuel => copyServinfo (n := n) fuel { smon := some c } m r.rdata) (some info)) → o.isSome) ∧
      ∀ st ∈ o, ∃ q' new, st = (q', m) ∧ Stock domain mon host xs (fun _ => none) (fun _ => none) q' ∧ SameHosts q q' ∧
        q'.log = new ++ q.log ∧ ∀ report ∈ new, report.status = .cacheFull := by
  have hmon := findServiceMonitor_comes h.firm.wellNamed htype
  rw [h.monitors] at hmon
  cases hc : mon T with
  | none =>
    rw [hc] at hmon
    refine ⟨some (q, m), comes_bind_some hmon (comes_const _), fun _ => rfl, ?_⟩
    rintro st ⟨⟩
    exact ⟨q, [], rfl, h, ⟨rfl, rfl, rfl⟩, rfl, nofun⟩
  | some c =>
    rw [hc] at hmon
    have hinst := findServiceInstance_comes h.firm.wellNamed (c := c) hpoints
    cases hslot : q.slotOf c host with
    | some t =>
      -- the slot of the host is renewed
      rw [hslot] at hinst
      have hstep : Comes (fun fuel => Mdns.ptrStep fuel elapsed (q, m) r)
          (some (q.setSinst t { q.sinsts t with ptrTtl := add32 (convertTtl r.ttl) elapsed }, m)) := by
        refine comes_bind_some hmon (comes_bind_some hinst ?_)
        simp only [if_neg httl]
        exact comes_const _
      have hname := find?_some hslot
      rw [decide_eq_true_eq] at hname
      refine ⟨_, hstep, fun _ => rfl, ?_⟩
      rintro st ⟨⟩
      exact ⟨_, [], rfl, h.renew hname rfl rfl (h.firm.ptrStep_advances hstep), ⟨rfl, rfl, rfl⟩, rfl, nofun⟩
    | none =>
      rw [hslot] at hinst
      obtain ⟨info, hinfo⟩ := (stable_copyServinfo (n := n) { smon := some c } m r.rdata).exists_comes
      cases hfree : q.sinstsFree with
      | nil =>
        cases info with
        | none =>
          refine ⟨none, ?_, ?_, nofun⟩
          · refine comes_bind_some hmon (comes_bind_some hinst ?_)
            simp only [hfree, if_neg httl]
            exact comes_bind_none hinfo
          · intro hall
            obtain ⟨info, hsome⟩ := hall c
            cases hsome.unique hinfo
        | some info =>
          obtain ⟨q', hover⟩ := overflow_comes (q := q) hpoints htxts hsrvs hinfo
          have hstep : Comes (fun fuel => Mdns.ptrStep fuel elapsed (q, m) r) (some (q', m)) := by
            refine comes_bind_some hmon (comes_bind_some hinst ?_)
            simp only [hfree, if_neg httl]
            exact hover
          refine ⟨_, hstep, fun _ => rfl, ?_⟩
          rintro st ⟨⟩
          obtain ⟨fuel, hf⟩ := hover
          have hnew : ∃ new, q'.log = new ++ q.log ∧ (∀ report ∈ new, report.status = Status.cacheFull) ∧
              q'.sinsts = q.sinsts ∧ q'.sinstsFree = q.sinstsFree ∧ SameHosts q q' := by
            rcases overflow_eq_some (hf fuel le_rfl) with rfl | ⟨report, -, hstatus, -, rfl⟩
            · exact ⟨[], rfl, nofun, rfl, rfl, rfl, rfl, rfl⟩
            · exact ⟨[report], rfl, forall_mem_singleton.mpr hstatus, rfl, rfl, rfl, rfl, rfl⟩
          obtain ⟨new, hlog, hfull, hsinsts, hfree', hsame⟩ := hnew
          refine ⟨q', new, rfl, ?_, hsame, hlog, hfull⟩
          refine h.carry (h.firm.ptrStep_advances hstep)
            (fun x hx => ⟨by rw [hsinsts], by rw [hfree']; exact h.used x hx⟩) ?_
          rw [hfree', hsinsts]
          exact h.others
      | cons t free =>
        have hstep := ptrStep_comes elapsed h.firm.wellNamed htype hpoints ((h.monitors T).trans hc) hslot hfree hinfo
        have ht : t ∈ q.sinstsFree := by rw [hfree]; exact mem_cons_self ..
        cases info with
        | none =>
          refine ⟨none, hstep, ?_, nofun⟩
          intro hall
          obtain ⟨info, hsome⟩ := hall c
          cases hsome.unique hinfo
        | some info =>
          refine ⟨_, hstep, fun _ => rfl, ?_⟩
          rintro st ⟨⟩
          cases info with
          | none => exact ⟨_, [], rfl, h.clear ht (h.firm.ptrStep_advances hstep), ⟨rfl, rfl, rfl⟩, rfl, nofun⟩
          | some i =>
            obtain ⟨fuel, hf⟩ := hinfo
            obtain ⟨name, _, _, _, _, hcopy, rfl⟩ := copyServinfo_eq_some (hf fuel le_rfl)
            have hname : plainLabels name = host := (expands_of_dnameCopy hcopy).unique hpoints
            exact ⟨_, [], rfl, h.house (h.firm.ptrStep_advances hstep) hfree rfl rfl hname rfl, ⟨rfl, rfl, rfl⟩, rfl,
              nofun⟩

end reverse

end Mdns
