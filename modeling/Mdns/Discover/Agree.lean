import Mdns.Discover.Hear
import Mdns.Query.Shown

/-!
# An announcement in the cache

Which services of an announcement the user of a querier with an empty cache is told of, and with
which texts.
-/
namespace Mdns
open Lib List

variable {n k : Nat}

section texts
variable {domain text : CString} {x : Wanted} {s : NamedService}

/-- The text that comes back: a leading colon ends the record before it begins, and the length of a text of
65535 bytes is counted as zero. -/
def readBack (text : CString) : List UInt8 :=
  if text.1.length = 65535 ∨ text.1.head? = some colon then [] else text.1

theorem readBack_eq_iff (hlen : text.1.length ≤ 254 ∨ text.1.length = 65535) :
    readBack text = text.1 ↔ text.1.length ≤ 254 ∧ text.1.head? ≠ some colon := by
  unfold readBack
  split
  · next h =>
    refine iff_of_false ?_ ?_
    · intro hnil
      rcases h with h | h
      · rw [← hnil] at h
        cases h
      · rw [← hnil] at h
        cases h
    · rintro ⟨hle, hhead⟩
      rcases h with h | h
      · omega
      · exact hhead h
  · next h =>
    rw [not_or] at h
    exact iff_of_true rfl ⟨hlen.resolve_right h.1, h.2⟩

theorem txtToCNcpy_nothing {p : Mem} {txt tlen : Nat} (h : byte p txt = 0 ∨ tlen = 0) :
    Comes (fun fuel => txtToCNcpy fuel (maxKeyvalLen + 1) p txt tlen) (some []) := by
  refine (comes_loop_break ?_).mpr rfl
  have hstop : byte p txt = 0 ∨ (tlen : Int) = 0 := h.imp_right (fun h => by rw [h]; rfl)
  simp only [txtBody, if_pos hstop]

theorem Admitted.yields (h : Admitted domain x s.service) (htext : x.2.2 = some text) : s.Yields (readBack text) := by
  have hconv := h.keyvals
  rw [htext] at hconv
  obtain ⟨hconvertible, hlen, hkeyvals, hkvlen⟩ := hconv
  intro p r e he hr
  have hdata : e.data = .txt (encodeTxt (pairs text)) ((text.1.length + 1) % 65536) := by
    unfold NamedService.txt at he
    rw [hkeyvals, hkvlen] at he
    cases he
    rfl
  have hrdlength := hr.rdlength
  have hrdata := hr.rdata
  rw [hdata] at hrdlength hrdata
  have hbytes : (Rdata.txt (encodeTxt (pairs text)) ((text.1.length + 1) % 65536)).bytes =
      slice (encodeTxt (pairs text)) 0 ((text.1.length + 1) % 65536) := rfl
  rw [hbytes] at hrdlength hrdata
  rw [slice_length] at hrdlength
  unfold readBack
  by_cases hwrap : text.1.length = 65535
  · rw [if_pos (.inl hwrap)]
    refine txtToCNcpy_nothing (.inr ?_)
    rw [hrdlength, hwrap]
  · have hle : text.1.length ≤ 254 := hlen.resolve_right hwrap
    have hmod : (text.1.length + 1) % 65536 = text.1.length + 1 := Nat.mod_eq_of_lt (by omega)
    have hsize : (encodeTxt (pairs text)).length = text.1.length + 1 := length_putLabels text colon
    have hwhole : slice (encodeTxt (pairs text)) 0 (text.1.length + 1) = encodeTxt (pairs text) := by
      rw [← hsize]
      exact At.slice ⟨[], [], by simp, rfl⟩
    rw [hmod, hwhole] at hrdata
    rw [hmod] at hrdlength
    by_cases hhead : text.1.head? = some colon
    · rw [if_pos (.inr hhead)]
      obtain ⟨c, cs, hcs⟩ := exists_cons_of_ne_nil (show text.1 ≠ [] by intro hnil; rw [hnil] at hhead; cases hhead)
      rw [hcs] at hhead
      cases hhead
      refine txtToCNcpy_nothing (.inl ?_)
      rw [pairs_of_colon hcs] at hrdata
      exact hrdata.byte
    · rw [if_neg (not_or.mpr ⟨hwrap, hhead⟩)]
      by_cases hnil : text.1 = []
      · refine hnil ▸ txtToCNcpy_nothing (.inl ?_)
        have hpairs : pairs text = [[]] := by rw [pairs, hnil]; rfl
        rw [hpairs] at hrdata
        exact hrdata.byte
      · obtain ⟨first, rest, hpairs, hfirst⟩ := pairs_of_head hnil hhead
        have hne : pairs text ≠ [] := by rw [hpairs]; exact cons_ne_nil first rest
        have hnonempty : ∀ l ∈ pairs text, l ≠ [] := by
          have htail := hconvertible.1
          rw [hpairs] at htail ⊢
          exact forall_mem_cons.mpr ⟨hfirst, fun l hl hempty => htail (hempty ▸ hl)⟩
        have hjoin : join (pairs text) = text.1 := intercalate_splitOn colon
        rw [hrdlength, ← hsize, ← hjoin]
        refine txtToCNcpy_encodeTxt hne ?_ (by omega) hrdata
        intro l hl
        have hl' := length_le_encodeTxt hl
        exact ⟨length_pos_iff.mpr (hnonempty l hl), by omega⟩

end texts

section response
variable {q : Querier n k} {m : Message} {R : NamedResponder} {hostname domain : CString}
  {ptrs srvs txts : List NamedService}
  {said : NamedService → List UInt8}

structure Querier.Vacant (q : Querier n k) : Prop where
  slots : ∀ s, s ∈ q.sinstsFree
  hosts : q.arecsActive = []
  referrers : ∀ a, (q.arecs a).sinsts = []

theorem Querier.Vacant.firm (h : q.Vacant) (ht : q.Tidy) (htyped : q.Typed) : q.Firm := by
  have hheld := ht.held
  refine ⟨⟨hheld.freeNodup, hheld.members, ⟨?_, ?_⟩, ?_, ?_, hheld.hosts, hheld.owners⟩, ⟨?_, ?_⟩, htyped⟩
  · intro a
    show (q.arecs a).sinsts.Nodup
    rw [h.referrers a]
    exact nodup_nil
  · intro a s
    show s ∈ (q.arecs a).sinsts ↔ _
    rw [h.referrers a]
    exact iff_of_false not_mem_nil (fun hs => hs.1 (h.slots s))
  · exact fun s hs => absurd (h.slots s) hs
  · exact fun s _ hs => absurd (h.slots s) hs
  · exact fun s hs => absurd (h.slots s) hs
  · intro a ha
    have ha : a ∈ q.arecsActive := ha
    rw [h.hosts] at ha
    cases ha

theorem Querier.Vacant.length_free (h : q.Vacant) (ht : q.Tidy) : q.sinstsFree.length = n := by
  have hnodup : q.sinstsFree.Nodup := ht.held.freeNodup
  have hperm : q.sinstsFree.Perm (List.finRange n) :=
    (perm_ext_iff_of_nodup hnodup (nodup_finRange n)).mpr (fun s => iff_of_true (h.slots s) (mem_finRange s))
  rw [hperm.length_eq, length_finRange]

theorem Querier.Vacant.stock (h : q.Vacant) (ht : q.Tidy) (htyped : q.Typed) (domain : CString) (host : Labels) :
    Stock domain q.monitorOf host [] (fun _ => none) (fun _ => none) q where
  firm := h.firm ht htyped
  monitors _ := rfl
  posted := nofun
  distinct := nodup_nil
  nodup := nodup_nil
  used := nofun
  name := nofun
  owner := nofun
  entry := nofun
  others s hs := absurd (h.slots s) hs

theorem Querier.Vacant.housed (h : q.Vacant) (ht : q.Tidy) (host : Labels) : Housed host none q where
  active := h.hosts
  spare _ hn hnil := by
    have hmem : (⟨0, hn⟩ : Fin n) ∈ q.arecsFree := (ht.held.hosts.off_iff _).mpr (by
      show (⟨0, hn⟩ : Fin n) ∉ q.arecsActive
      rw [h.hosts]
      exact not_mem_nil)
    rw [hnil] at hmem
    cases hmem
  blank := nofun

theorem NamedResponder.Lettered.posted (hR : R.Lettered hostname domain) {s : NamedService} (hs : s ∈ R.services)
    (hname : s.service.servname.1 ≠ []) {mon : Labels → Option (Fin k)} (hmon : (mon s.ptr.labels).isSome) :
    Posted domain mon R.fqdn.labels s := by
  have hlabels : s.fqsn.labels = s.service.name domain := by
    rw [hR.fqsn s hs, wireLabels_cons hname]
    rfl
  refine ⟨hR.ptr s hs, hlabels, hmon, ?_⟩
  intro heq
  have hlong : 3 ≤ s.fqsn.labels.length := by
    rw [hlabels, Service.name, Service.kind_eq]
    simp
  have hshort : R.fqdn.labels.length ≤ 2 := by
    rw [hR.fqdn]
    exact ( takeWhile_prefix _).length_le
  rw [heq] at hlong
  omega

/-- The response has the records of these services, all of which have names, and the querier monitors their types. -/
structure Legible (q : Querier n k) (m : Message) (R : NamedResponder) (hostname domain : CString)
    (ptrs srvs txts : List NamedService) (said : NamedService → List UInt8) : Prop where
  lettered : R.Lettered hostname domain
  conveys : m.Conveys R ptrs srvs txts
  served : ptrs <+: srvs
  known : srvs <+: R.services
  told : txts.Sublist ptrs
  named : ∀ s ∈ srvs, s.service.servname.1 ≠ []
  distinct : (srvs.map (·.fqsn.labels)).Nodup
  watched : ∀ s ∈ srvs, (q.monitorOf s.ptr.labels).isSome
  yields : ∀ s ∈ txts, s.Yields (said s)

theorem Legible.posted (h : Legible q m R hostname domain ptrs srvs txts said) :
    ∀ s ∈ srvs, Posted domain q.monitorOf R.fqdn.labels s :=
  fun s hs => h.lettered.posted (h.known.subset hs) (h.named s hs) (h.watched s hs)

theorem forall₂_right_mem {α β : Type} {rel : α → β → Prop} {as : List α} {bs : List β} (h : Forall₂ rel as bs) :
    ∀ b ∈ bs, ∃ a ∈ as, rel a b := by
  induction h with
  | nil => exact nofun
  | cons hab _ ih =>
    refine forall_mem_cons.mpr ⟨⟨_, mem_cons_self .., hab⟩, ?_⟩
    intro b hb
    obtain ⟨a, ha, hrel⟩ := ih b hb
    exact ⟨a, mem_cons_of_mem _ ha, hrel⟩

theorem map_eq_map_of_forall₂ {α β γ : Type} {rel : α → β → Prop} {f : α → γ} {g : β → γ} {as : List α} {bs : List β}
    (h : Forall₂ rel as bs) (hone : ∀ a ∈ as, ∀ b ∈ bs, rel a b → f a = g b) : as.map f = bs.map g := by
  induction h with
  | nil => rfl
  | @cons a b as bs hab _ ih =>
    rw [map_cons, map_cons, hone a (mem_cons_self ..) b (mem_cons_self ..) hab]
    rw [ih (fun a ha b hb => hone a (mem_cons_of_mem _ ha) b (mem_cons_of_mem _ hb))]

theorem Legible.foreign (h : Legible q m R hostname domain ptrs srvs txts said) :
    Foreign m.data m.txts R.fqdn.labels ∧ Foreign m.data m.srvs R.fqdn.labels := by
  constructor
  · intro r hr
    obtain ⟨s, hs, e, he, hrec⟩ := forall₂_right_mem h.conveys.txt r hr
    have hs : s ∈ srvs := h.served.subset (h.told.subset (mem_reverse.mp hs))
    refine ⟨s.fqsn.labels, ?_, (h.posted s hs).apart⟩
    rw [← NamedService.txt_owner he]
    exact hrec.name
  · intro r hr
    obtain ⟨s, hs, hrec⟩ := forall₂_right_mem h.conveys.srv r hr
    exact ⟨s.fqsn.labels, hrec.name, (h.posted s (mem_reverse.mp hs)).apart⟩

section hosts
variable {c : Fin k} {off : Nat}

/-- Two labels are not enough. -/
theorem copyServinfo_two_labels {l l' : List UInt8} (hsizes : ∀ x ∈ [l, l'], 0 < x.length ∧ x.length < 64)
    (hat : At m.data off (encodeName [l, l'])) (hfits : (encodeName [l, l']).length ≤ maxNameLen) :
    ∃ info, Comes (fun fuel => copyServinfo (n := n) fuel { smon := some c } m off) (some info) := by
  have hcopy := dnameCopy_comes hsizes hat hfits
  have hexp : Expands (.packet m.data) off [l, l'] := expands_encodeName hsizes hat
  obtain ⟨hsize, hsizes'⟩ := forall_mem_cons.mp hsizes
  by_cases h1 : l.length < maxLabelLen
  swap
  · exact ⟨none, comes_bind_some hcopy (comes_bind_some (dnameLabelToC_long hexp h1 true) (comes_const _))⟩
  obtain ⟨hget1, hat⟩ := dnameLabelToC_at hat hsize.1 h1 true
  by_cases h2 : l'.length < maxLabelLen
  swap
  · have hexp2 : Expands (.packet m.data) _ [l'] := expands_encodeName hsizes' hat
    exact ⟨none, comes_bind_some hcopy (comes_bind_some hget1 (comes_bind_some (dnameLabelToC_long hexp2 h2 false)
      (comes_const _)))⟩
  obtain ⟨hget2, hat⟩ := dnameLabelToC_at hat (hsizes' l' (mem_singleton.mpr rfl)).1 h2 false
  obtain ⟨isTcp, htcp, htcp'⟩ := dnameLabelCmp_root expands_tcpLabel hat.byte
  obtain ⟨isUdp, hudp, hudp'⟩ := dnameLabelCmp_root expands_udpLabel hat.byte
  refine ⟨none, comes_bind_some hcopy (comes_bind_some hget1 (comes_bind_some hget2 (comes_bind_some htcp'
    (comes_bind_some hudp' ?_))))⟩
  simp only [if_pos (show isTcp ≠ 0 ∧ isUdp ≠ 0 from ⟨htcp, hudp⟩)]
  exact comes_const _

/-- The labels are read behind the end of an empty name. -/
theorem copyServinfo_behind {l₁ l₂ l₃ : List UInt8} {ls : Labels} (hat : At m.data off (encodeName []))
    (hname : Expands (.packet m.data) (off + 1) (l₁ :: l₂ :: l₃ :: ls)) (h3 : l₃.length < maxLabelLen) :
    ∃ info, Comes (fun fuel => copyServinfo (n := n) fuel { smon := some c } m off) (some info) := by
  have hcopy := dnameCopy_comes (forall_mem_nil _) hat (by decide)
  have hget1 := dnameLabelToC_root hat.byte true
  by_cases h1 : l₁.length < maxLabelLen
  swap
  · exact ⟨none, comes_bind_some hcopy (comes_bind_some hget1 (comes_bind_some (dnameLabelToC_long hname h1 false)
      (comes_const _)))⟩
  obtain ⟨protoAt, hget2, hproto⟩ := dnameLabelToC_comes hname h1 false
  have htcp := dnameLabelCmp_comes expands_tcpLabel hproto
  have hudp := dnameLabelCmp_comes expands_udpLabel hproto
  obtain ⟨domainAt, hget3, hdom⟩ := dnameLabelNext_comes hproto
  obtain ⟨_, hget4, -⟩ := dnameLabelToC_comes hdom h3 false
  by_cases hknown : cmpBytes tcpLabel l₂ ≠ 0 ∧ cmpBytes udpLabel l₂ ≠ 0
  · refine ⟨none, comes_bind_some hcopy (comes_bind_some hget1 (comes_bind_some hget2 (comes_bind_some htcp
      (comes_bind_some hudp ?_))))⟩
    simp only [if_pos hknown]
    exact comes_const _
  · refine ⟨some { fqsn := encodeName [], servname := [], servtype := labelText false l₁
                   proto := if cmpBytes tcpLabel l₂ = 0 then .tcp else .udp
                   domain := labelText false l₃, smon := some c },
      comes_bind_some hcopy (comes_bind_some hget1 (comes_bind_some hget2 (comes_bind_some htcp
        (comes_bind_some hudp ?_))))⟩
    simp only [if_neg hknown]
    exact comes_bind_some hget3 (comes_bind_some hget4 (comes_const _))

end hosts

/-- `copy_servinfo` on the name of the host. An empty host name is followed by the name of the first service. -/
theorem Legible.copies (h : Legible q m R hostname domain ptrs srvs txts said) (hdomain : domain.1 ≠ [])
    (hsrvs : srvs ≠ []) :
    ∀ r ∈ m.ptrs.getLast?, ∀ c : Fin k, ∃ info,
      Comes (fun fuel => copyServinfo (n := n) fuel { smon := some c } m r.rdata) (some info) := by
  obtain ⟨rs, last, hptrs, -, hlast, hnext⟩ := h.conveys.ptr
  intro r hr c
  rw [hptrs, getLast?_concat] at hr
  cases hr
  have hat : At m.data last.rdata (encodeName R.fqdn.labels) := hlast.rdata
  have hsizes := R.fqdn.sizes
  have hfits := R.fqdn.fits
  have hfqdn := h.lettered.fqdn
  by_cases hhost : hostname.1 = []
  · rw [hhost, wireLabels_nil_cons] at hfqdn
    obtain ⟨s, rest, hs⟩ := exists_cons_of_ne_nil hsrvs
    have hmem : s ∈ srvs := by rw [hs]; exact mem_cons_self ..
    have hhead : R.services.head? = some s := by
      obtain ⟨more, hmore⟩ := h.known
      rw [← hmore, hs]
      rfl
    obtain ⟨r, hrec, hfollows⟩ := hnext s hhead
    have hlen : last.rdlength = 1 := by
      rw [hlast.rdlength]
      show (encodeName R.fqdn.labels).length = 1
      rw [hfqdn]
      rfl
    have hname := hrec.name
    rw [hfollows, hlen] at hname
    have hlabels : s.fqsn.labels = s.service.servname.1 :: (underscore :: s.service.servtype.1) ::
        protoLabel s.service.proto :: wireLabels [domain.1] := by
      rw [(h.posted s hmem).name, Service.name, Service.kind_eq]
    rw [hfqdn] at hat
    refine copyServinfo_behind hat (hlabels ▸ hname) ?_
    rw [length_protoLabel]
    decide
  · have hfqdn : R.fqdn.labels = [hostname.1, domain.1] := by
      rw [hfqdn, wireLabels_cons hhost, wireLabels_cons hdomain]
      rfl
    rw [hfqdn] at hat hsizes hfits
    exact copyServinfo_two_labels hsizes hat hfits

/-- The readable services whose PTR records are read are told, each with its text if that is read. -/
theorem Legible.cache (elapsed : Nat) (h : Legible q m R hostname domain ptrs srvs txts said)
    (hv : q.Vacant) (ht : q.Tidy)
    (htyped : q.Typed) (hip : R.responder.myIpaddr < 4294967296) (hroom : ptrs.length ≤ n) :
    ∃ o, Comes (fun fuel => updateServiceCache fuel elapsed q m) o ∧
      ((∀ r ∈ m.ptrs.getLast?, ∀ c : Fin k, ∃ info,
        Comes (fun fuel => copyServinfo (n := n) fuel { smon := some c } m r.rdata) (some info)) → o.isSome) ∧
      ∀ q' ∈ o, ∃ new, q'.log = new ++ q.log ∧ ((new.filter (·.status = .discovered)).map Report.advert).Perm
        (readings domain R.responder.myIpaddr (heardTexts said txts.reverse) (ptrs.filter (·.Readable domain))) := by
  obtain ⟨rs, last, hptrs, hrs, hlast, -⟩ := h.conveys.ptr
  obtain ⟨ra, has, hra⟩ := h.conveys.a
  obtain ⟨hforeign, hforeign'⟩ := h.foreign
  have hnames : (ptrs.map (·.fqsn.labels)).Nodup := (h.served.sublist.map _).nodup h.distinct
  have hptr : ∀ s ∈ ptrs.reverse, Posted domain q.monitorOf R.fqdn.labels s :=
    fun s hs => h.posted s (h.served.subset (mem_reverse.mp hs))
  obtain ⟨q₁, ys, hrun₁, h₁, hys, hsame₁, hlog₁⟩ := (hv.stock ht htyped domain R.fqdn.labels).ptrs elapsed hrs hptr
    (by rw [map_nil, append_nil, map_reverse, nodup_reverse]; exact hnames)
    (by rw [hv.length_free ht, length_reverse]; exact hroom)
  have hys : ys.map Prod.fst = ptrs.filter (·.Readable domain) := by
    rw [hys, filter_reverse, reverse_reverse, map_nil, append_nil]
  have hpoints : Expands (.packet m.data) last.rdata R.fqdn.labels := expands_encodeName R.fqdn.sizes hlast.rdata
  have httl : last.ttl ≠ 0 := by
    rw [hlast.ttl]
    exact Nat.succ_ne_zero 254
  obtain ⟨o, ho, hreturns, hstates⟩ := h₁.reverseStep elapsed hlast.name hpoints httl hforeign hforeign'
  cases o with
  | none =>
    refine ⟨none, ?_, ?_, fun q' hq' => by cases hq'⟩
    · simp only [updateServiceCache, h.conveys.response, if_true]
      refine comes_bind_none ?_
      rw [hptrs]
      refine comes_runAll_append hrun₁ ?_
      simp only [runAll_singleton]
      exact ho
    · intro hall
      refine hreturns (hall last ?_)
      rw [hptrs, getLast?_concat]
      rfl
  | some st =>
    obtain ⟨q₂, full, rfl, h₂, hsame₂, hlog₂, hfull⟩ := hstates st rfl
    have hsub : ∀ s ∈ txts.reverse, s ∈ srvs := fun s hs => h.served.subset (h.told.subset (mem_reverse.mp hs))
    obtain ⟨q₃, hrun₃, h₃, hsame₃, hlog₃⟩ := h₂.txts elapsed h.conveys.txt
      (fun s hs => ⟨h.posted s (hsub s hs), h.yields s (mem_reverse.mp hs)⟩)
      (by rw [map_reverse, nodup_reverse]; exact (h.told.map _).nodup hnames) (fun _ _ => rfl)
    have hb : Housed R.fqdn.labels none q₃ := by
      have hb := hv.housed ht R.fqdn.labels
      have hsame := (hsame₁.trans hsame₂).trans hsame₃
      exact ⟨hsame.arecsActive.trans hb.active, fun hnone hn => hsame.arecsFree ▸ hb.spare hnone hn,
        fun a ha => by cases ha⟩
    obtain ⟨q₄, b, room, hrun₄, h₄, hb₄, hroom₄, hlodged, -, hlog₄⟩ :=
      h₃.srvs elapsed rfl h.conveys.srv hb (fun _ => .inl rfl)
      (fun s hs => h.posted s (mem_reverse.mp hs))
      (by rw [map_reverse, nodup_reverse]; exact h.distinct) (fun _ _ => rfl)
    have hhoused : ∀ x ∈ ys, (room x.1.fqsn.labels).isSome ∧ room x.1.fqsn.labels = b := by
      intro x hx
      have hmem : x.1 ∈ ys.map Prod.fst := List.mem_map_of_mem hx
      rw [hys] at hmem
      have hs := h.served.subset (mem_of_mem_filter hmem)
      have hslot : slotIn ys x.1.fqsn.labels ≠ none := by
        rw [(h₁.slot_iff (h₁.posted x hx).apart (h₁.used x hx)).mp (h₁.name x hx)]
        exact Option.some_ne_none x.2
      have hsome := hlodged x.1 (mem_reverse.mpr hs) hslot
      refine ⟨hsome, (hroom₄ x.1.fqsn.labels).resolve_left ?_⟩
      intro hnone
      rw [hnone] at hsome
      cases hsome
    obtain ⟨q₅, new, hrun₅, hlog₅, hdisc, hperm⟩ :=
      h₄.aStep hb₄ hhoused hra.name (by rw [hra.ttl]; exact Nat.succ_ne_zero 254)
    have haddr : getUint32 m.data ra.rdata = R.responder.myIpaddr := by
      have hdata : At m.data ra.rdata (setUint32 R.responder.myIpaddr) := hra.rdata
      exact (getUint32_setUint32 hdata).trans (Nat.mod_eq_of_lt hip)
    have hkv : (fun N => (heardTexts said txts.reverse N).or none) = heardTexts said txts.reverse := by
      funext N
      exact Option.or_none
    rw [haddr, hkv, hys] at hperm
    refine ⟨some q₅, ?_, fun _ => rfl, ?_⟩
    · simp only [updateServiceCache, h.conveys.response, if_true]
      refine comes_bind_some (a := (q₂, m)) ?_ ?_
      · rw [hptrs]
        refine comes_runAll_append hrun₁ ?_
        simp only [runAll_singleton]
        exact ho
      · refine comes_bind_some hrun₃ (comes_bind_some hrun₄ ?_)
        simp only [has, runAll_singleton]
        exact hrun₅
    · rintro q' ⟨⟩
      refine ⟨new ++ full, ?_, ?_⟩
      · rw [hlog₅, hlog₄, hlog₃, hlog₂, hlog₁, append_assoc]
      · have hnone : full.filter (·.status = .discovered) = [] := by
          refine filter_eq_nil_iff.mpr ?_
          intro report hreport
          rw [hfull report hreport]
          decide
        have hall : new.filter (·.status = .discovered) = new :=
          filter_eq_self.mpr (fun report hreport => decide_eq_true (hdisc report hreport))
        rw [filter_append, hnone, hall, append_nil]
        exact hperm

end response

end Mdns
