import Mdns.Discover.Agree
import Mdns.Query.Passed

/-!
# From the responder to the user of the querier

Each service is told exactly once and with the data that were advertised exactly if the two sides
agree on their limits: the querier reads fewer records, shorter labels and no underscores.
-/
namespace Mdns
open Lib List Option

variable {n k : Nat}

section nameless
variable {q q' : Querier n k} {s : Fin n} {u : News n} {fuel elapsed : Nat} {m m' : Message} {r : Resource} {ret : Int}

theorem HostsSrv.smonsActive (h : HostsSrv fuel q s m r q' ret) : q'.smonsActive = q.smonsActive := by
  cases h with
  | found _ hh => exact hh.smonsActive
  | full _ _ => rfl
  | fresh _ _ _ hh => exact hh.smonsActive

theorem Reacts.smonsActive {changes : Int} (h : Reacts q s changes elapsed (.got u) q') :
    q'.smonsActive = q.smonsActive := by
  cases h with
  | quiet _ => rfl
  | pending _ _ _ => rfl
  | gone _ _ hcb => exact (proceeds_callbackOn hcb).monitors
  | discovered _ _ _ hcb => exact (proceeds_callbackOn hcb).monitors
  | updated _ _ _ _ hcb => exact (proceeds_callbackOn hcb).monitors

theorem updateSinst_smonsActive (h : updateSinst fuel q s (.got u) elapsed = some (q', ret)) :
    q'.smonsActive = q.smonsActive := by
  obtain ⟨q₁, changes, hc, hr⟩ := updateSinst_eq_some h
  rw [hr.smonsActive]
  cases u with
  | arec a => exact (hosted_of_setArec hc).smonsActive
  | txt m r =>
    obtain ⟨i, ret', -, hc⟩ := bind_pair_eq_some.mp hc
    cases hc
    rfl
  | srv m r =>
    rcases updateSrv_eq_some hc with ⟨-, hclean, -⟩ | ⟨-, q₂, moved, hhosts, rfl, -⟩
    · exact (cleaned_of_cleanupSinst hclean).smonsActive
    · exact hhosts.smonsActive

theorem txtStep_smonsActive (h : txtStep fuel elapsed m q r = some q') : q'.smonsActive = q.smonsActive := by
  rcases txtStep_eq_some h with ⟨-, rfl⟩ | ⟨s, ret, -, hu⟩
  · rfl
  · exact updateSinst_smonsActive hu

theorem srvStep_smonsActive (h : srvStep fuel elapsed m q r = some q') : q'.smonsActive = q.smonsActive := by
  rcases srvStep_eq_some h with ⟨-, rfl⟩ | ⟨s, ret, -, hu⟩
  · rfl
  · exact updateSinst_smonsActive hu

/-- A PTR record takes at most one slot, and the rest of the message is left alone as long as there is one. -/
theorem TakesPtr.room (h : TakesPtr fuel elapsed q m r q' m') (hroom : q.sinstsFree ≠ []) :
    m' = m ∧ q'.smonsActive = q.smonsActive ∧ q.sinstsFree.length ≤ q'.sinstsFree.length + 1 := by
  cases h with
  | ignored _ => exact ⟨rfl, rfl, Nat.le_succ _⟩
  | @goodbye c s q₁ _ _ _ _ hbye hclean =>
    have hcl := cleaned_of_cleanupSinst hclean
    have hsame : q₁.smonsActive = q.smonsActive ∧ q₁.sinstsFree = q.sinstsFree := by
      unfold sayGoodbye at hbye
      split at hbye
      · cases hbye
        exact ⟨rfl, rfl⟩
      · obtain ⟨d, -, rfl⟩ := callbackOn_eq_some.mp hbye
        exact ⟨rfl, rfl⟩
    refine ⟨rfl, hcl.smonsActive.trans hsame.1, ?_⟩
    rw [hcl.free, hsame.2, length_cons]
    omega
  | renewed _ _ _ => exact ⟨rfl, rfl, Nat.le_succ _⟩
  | failed _ _ _ _ => exact ⟨rfl, rfl, Nat.le_succ _⟩
  | adopted _ _ hfree _ => exact ⟨rfl, rfl, by rw [hfree]; exact le_rfl⟩
  | unheard _ _ hfull _ => exact absurd hfull hroom
  | overflowed _ _ hfull _ _ => exact absurd hfull hroom

theorem ptrs_room {rs : List Resource} (h : runAll (ptrStep fuel elapsed) rs (q, m) = some (q', m'))
    (hroom : rs.length ≤ q.sinstsFree.length) : m' = m ∧ q'.smonsActive = q.smonsActive := by
  induction rs generalizing q with
  | nil =>
    cases h
    exact ⟨rfl, rfl⟩
  | cons r rs ih =>
    obtain ⟨⟨q₁, m₁⟩, h₁, hrest⟩ := runAll_cons_eq_some.mp h
    rw [length_cons] at hroom
    obtain ⟨rfl, hactive, hlen⟩ := (takesPtr_of_ptrStep h₁).room (ne_nil_of_length_pos (by omega))
    obtain ⟨hm, hactive'⟩ := ih hrest (by omega)
    exact ⟨hm, hactive'.trans hactive⟩

/-- The name of a record without a name has no next label: the NULL is followed as soon as there is a monitor. -/
theorem sinstOf_nameless (hactive : q.smonsActive ≠ []) (hroot : byte m.data r.name = 0)
    (hend : byte m.data (r.name + 1) = 0) :
    sinstOf fuel q m r = none := by
  cases hnext : dnameLabelNext fuel (.packet m.data) r.name with
  | none =>
    unfold sinstOf
    rw [hnext]
    rfl
  | some next =>
    obtain ⟨c, hlands, hnext'⟩ := dnameLabelNext_eq_some hnext
    have hhere : Lands (.packet m.data) r.name r.name :=
      lands_self (by show isPointer (byte m.data r.name) = false; rw [hroot]; rfl)
    obtain rfl := hlands.unique hhere
    rw [hroot, if_pos hend] at hnext'
    subst hnext'
    obtain ⟨c, cs, hcs⟩ := exists_cons_of_ne_nil hactive
    unfold sinstOf findServiceMonitor
    rw [hnext, hcs]
    rfl

theorem updateServiceCache_nameless (h : updateServiceCache fuel elapsed q m = some q') (hqr : m.qr = true)
    (hroom : m.ptrs.length ≤ q.sinstsFree.length) (hactive : q.smonsActive ≠ []) :
    ∀ r ∈ m.srvs, byte m.data r.name = 0 → byte m.data (r.name + 1) ≠ 0 := by
  have hpass : ∀ {rs : List Resource} {q₂ q₃ : Querier n k}, q₂.smonsActive ≠ [] →
      runAll (srvStep fuel elapsed m) rs q₂ = some q₃ → ∀ r ∈ rs, byte m.data r.name = 0 →
        byte m.data (r.name + 1) ≠ 0 := by
    intro rs
    induction rs with
    | nil => exact fun _ _ => nofun
    | cons r rs ih =>
      intro q₂ q₃ hactive₂ h
      obtain ⟨q₁, h₁, h⟩ := runAll_cons_eq_some.mp h
      refine forall_mem_cons.mpr ⟨?_, ih (srvStep_smonsActive h₁ ▸ hactive₂) h⟩
      intro hroot hend
      unfold srvStep at h₁
      rw [sinstOf_nameless hactive₂ hroot hend] at h₁
      cases h₁
  simp only [updateServiceCache, hqr, if_true, bind_eq_bind, bind_eq_some_iff] at h
  obtain ⟨⟨q₁, m₁⟩, h₁, q₂, h₂, q₃, h₃, -⟩ := h
  obtain ⟨rfl, hactive₁⟩ := ptrs_room h₁ hroom
  have hactive₂ : q₂.smonsActive = q₁.smonsActive :=
    runAll_keeps (I := fun p : Querier n k => p.smonsActive = q₁.smonsActive)
      (fun _ _ _ hs hp => (txtStep_smonsActive hs).trans hp) h₂ rfl
  refine hpass ?_ h₃
  rw [hactive₂, hactive₁]
  exact hactive

end nameless

section pairing
variable {domain : CString} {x x' : Wanted} {s s' : NamedService} {services : List Wanted} {ss : List NamedService}
  {said : NamedService → List UInt8}

def Service.key (s : Service) : CString × CString × Proto := (s.servname, s.servtype, s.proto)

theorem Service.key_of_name {s t : Service} (h : s.name domain = t.name domain) : s.key = t.key := by
  rw [Service.name, Service.name, Service.kind_eq, Service.kind_eq] at h
  simp only [List.cons.injEq, true_and] at h
  obtain ⟨hname, htype, hproto, -⟩ := h
  have hproto : s.proto = t.proto := by
    revert hproto
    cases s.proto <;> cases t.proto <;> decide
  rw [Service.key, Service.key, Subtype.ext hname, Subtype.ext htype, hproto]

abbrev Paired (domain : CString) : List Wanted → List NamedService → Prop :=
  Forall₂ (fun x s => Admitted domain x s.service)

theorem Admitted.key (h : Admitted domain x s.service) : s.service.key = x.1.key := by
  rw [Service.key, h.servname, h.servtype, h.proto, Service.key]

theorem Admitted.hasTxt (h : Admitted domain x s.service) : s.hasTxt = x.2.2.isSome := by
  have hconv := h.keyvals
  unfold NamedService.hasTxt
  cases htext : x.2.2 with
  | none =>
    rw [htext] at hconv
    rw [show s.service.keyvals = none from hconv]
    rfl
  | some text =>
    rw [htext] at hconv
    rw [hconv.2.2.1]
    rfl

theorem Paired.keys (h : Paired domain services ss) : ss.map (·.service.key) = services.map (·.1.key) := by
  induction h with
  | nil => rfl
  | cons hx _ ih => rw [map_cons, map_cons, ih, hx.key]

theorem Paired.left (h : Paired domain services ss) (hx : x ∈ services) : ∃ s ∈ ss, Admitted domain x s.service :=
  forall₂_right_mem h.flip x hx

theorem Paired.right (h : Paired domain services ss) (hs : s ∈ ss) : ∃ x ∈ services, Admitted domain x s.service :=
  forall₂_right_mem h s hs

theorem Paired.records (h : Paired domain services ss) (fqdn : WireName) :
    (ss.flatMap (·.announced fqdn 255)).length = (services.map (fun x => if x.2.2.isSome then 3 else 2)).sum := by
  induction h with
  | nil => rfl
  | @cons x s _ _ hx _ ih =>
    rw [flatMap_cons, length_append, map_cons, sum_cons, ih, s.length_announced, hx.hasTxt]

def textRead (services : List Wanted) (s : NamedService) : List UInt8 :=
  ((services.find? (fun x => x.1.key = s.service.key)).bind (·.2.2)).elim [] readBack

theorem textRead_eq (hkeys : (services.map (·.1.key)).Nodup) (hx : x ∈ services)
    (h : Admitted domain x s.service) {text : CString}
    (htext : x.2.2 = some text) : textRead services s = readBack text := by
  have hfind : services.find? (fun x => x.1.key = s.service.key) = some x := by
    cases hfound : services.find? (fun x => x.1.key = s.service.key) with
    | none =>
      have hnone := find?_eq_none.mp hfound x hx
      rw [decide_eq_true_eq] at hnone
      exact absurd h.key.symm hnone
    | some y =>
      have hy := find?_some hfound
      rw [decide_eq_true_eq] at hy
      rw [inj_on_of_nodup_map hkeys (mem_of_find?_eq_some hfound) hx (hy.trans h.key)]
  unfold textRead
  rw [hfind, bind_some, htext]
  rfl

theorem heardTexts_of_mem (hnodup : (ss.map (·.fqsn.labels)).Nodup) (hs : s ∈ ss) :
    heardTexts said ss s.fqsn.labels = some (said s) := by
  induction ss with
  | nil => cases hs
  | cons t ss ih =>
    rw [map_cons, nodup_cons] at hnodup
    rcases mem_cons.mp hs with rfl | hs
    · exact heardTexts_self ..
    · have hne : t.fqsn.labels ≠ s.fqsn.labels := by
        intro heq
        exact hnodup.1 (heq ▸ List.mem_map_of_mem hs)
      rw [heardTexts_of_ne said ss hne]
      exact ih hnodup.2 hs

end pairing

section limits
variable {q : Querier n k} {m : Message} {R : NamedResponder} {hostname domain : CString}
  {ptrs srvs txts : List NamedService}
  {said : NamedService → List UInt8} {services : List Wanted} {ipaddr : Nat} {x : Wanted} {s : NamedService}

def advertOf (ipaddr : Nat) (domain : CString) (x : Wanted) : Advert :=
  ⟨x.1.servname.1, x.1.servtype.1, x.1.proto, domain.1, ipaddr, x.2.2.map Subtype.val⟩

/-- The limits that both sides keep to: an address, no more records than the parser keeps, labels that leave room
for a zero byte with the underscore of the type, and texts that do not begin with a colon. -/
structure Compatible (ipaddr : Nat) (domain : CString) (services : List Wanted) : Prop where
  address : ipaddr ≠ 0
  records : 2 + (services.map (fun x => if x.2.2.isSome then 3 else 2)).sum ≤ maxAnswers
  zone : domain.1 ≠ [] ∧ domain.1.length < maxLabelLen ∧ underscore ∉ domain.1
  names : ∀ x ∈ services, x.1.servname.1 ≠ [] ∧ x.1.servname.1.length < maxLabelLen
  types : ∀ x ∈ services, x.1.servtype.1.length + 1 < maxLabelLen ∧ underscore ∉ x.1.servtype.1
  texts : ∀ x ∈ services, ∀ text ∈ x.2.2, text.1.length ≤ 254 ∧ text.1.head? ≠ some colon

theorem underscore_not_mem_labelText (l : List UInt8) : underscore ∉ labelText false l := by
  intro h
  exact of_decide_eq_true (mem_filter.mp h).2 rfl

theorem Legible.heard_mem (h : Legible q m R hostname domain ptrs srvs txts said) (hs : s ∈ txts) :
    heardTexts said txts.reverse s.fqsn.labels = some (said s) := by
  refine heardTexts_of_mem ?_ (mem_reverse.mpr hs)
  rw [map_reverse, nodup_reverse]
  exact ((h.told.trans h.served.sublist).map _).nodup h.distinct

theorem Legible.heard_not_mem (h : Legible q m R hostname domain ptrs srvs txts said) (hs : s ∈ srvs)
    (hout : s ∉ txts) :
    heardTexts said txts.reverse s.fqsn.labels = none := by
  refine heardTexts_eq_none ?_
  rw [map_reverse, mem_reverse]
  intro hmem
  obtain ⟨t, ht, heq⟩ := List.mem_map.mp hmem
  have htsrvs : t ∈ srvs := h.served.subset (h.told.subset ht)
  rw [inj_on_of_nodup_map h.distinct htsrvs hs heq] at ht
  exact hout ht

theorem Admitted.readable (h : Admitted domain x s.service) : s.Readable domain ↔ x.1.servname.1.length < maxLabelLen ∧
    x.1.servtype.1.length + 1 < maxLabelLen ∧ domain.1 ≠ [] ∧ domain.1.length < maxLabelLen := by
  unfold NamedService.Readable
  rw [h.servname, h.servtype, length_cons]

theorem Admitted.reading (h : Admitted domain x s.service) (htype : underscore ∉ x.1.servtype.1)
    (hdomain : underscore ∉ domain.1)
    {kv : Option (List UInt8)} (hkv : kv = x.2.2.map Subtype.val) :
    s.reading domain ipaddr kv = advertOf ipaddr domain x := by
  unfold NamedService.reading advertOf
  rw [h.servname, h.servtype, h.proto, (labelText_eq_self_iff _).mpr htype, (labelText_eq_self_iff _).mpr hdomain, hkv]

theorem Legible.readings_eq (h : Legible q m R hostname domain ptrs srvs txts (textRead services))
    (hr : Reached R.fqdn R.services 30 ptrs srvs txts) (hpair : Paired domain services R.services)
    (hkeys : (services.map (·.1.key)).Nodup) (hc : Compatible ipaddr domain services) :
    readings domain ipaddr (heardTexts (textRead services) txts.reverse) (ptrs.filter (·.Readable domain)) =
      services.map (advertOf ipaddr domain) := by
  have hrecords := hc.records
  rw [← hpair.records R.fqdn, maxAnswers] at hrecords
  obtain ⟨hptrs, hsrvs, htxts⟩ := hr.whole (by omega)
  have hall : ptrs.filter (·.Readable domain) = R.services := by
    rw [hptrs, filter_eq_self]
    intro s hs
    obtain ⟨x, hx, hadm⟩ := hpair.right hs
    exact decide_eq_true (hadm.readable.mpr ⟨(hc.names x hx).2, (hc.types x hx).1, hc.zone.1, hc.zone.2.1⟩)
  rw [readings, if_neg hc.address, hall]
  refine map_eq_map_of_forall₂ hpair.flip ?_
  intro s hs x hx hadm
  refine hadm.reading (hc.types x hx).2 hc.zone.2.2 ?_
  cases htext : x.2.2 with
  | none =>
    rw [h.heard_not_mem (hsrvs ▸ hs) ?_]
    · rfl
    · rw [htxts, mem_filter, hadm.hasTxt, htext]
      exact fun hmem => Bool.false_ne_true hmem.2
  | some text =>
    rw [h.heard_mem ?_, textRead_eq hkeys hx hadm htext]
    · obtain ⟨hlen, hhead⟩ := hc.texts x hx text htext
      exact congrArg some ((readBack_eq_iff (.inl hlen)).mpr ⟨hlen, hhead⟩)
    · rw [htxts, mem_filter, hadm.hasTxt, htext]
      exact ⟨hs, rfl⟩

theorem Legible.compatible (h : Legible q m R hostname domain ptrs srvs txts (textRead services))
    (hr : Reached R.fqdn R.services 30 ptrs srvs txts) (hpair : Paired domain services R.services)
    (hkeys : (services.map (·.1.key)).Nodup) (hservices : services ≠ [])
    (hperm : (readings domain ipaddr (heardTexts (textRead services) txts.reverse)
      (ptrs.filter (·.Readable domain))).Perm
      (services.map (advertOf ipaddr domain))) : Compatible ipaddr domain services := by
  have hip : ipaddr ≠ 0 := by
    intro hzero
    rw [readings, if_pos hzero] at hperm
    exact hservices (map_eq_nil_iff.mp hperm.nil_eq.symm)
  rw [readings, if_neg hip] at hperm
  -- none is missing, so that all have been reached and can be read
  have hlen := hperm.length_eq
  rw [length_map, length_map, hpair.length_eq] at hlen
  have hsub : ptrs.Sublist R.services := (h.served.trans h.known).sublist
  have hall : ptrs.filter (·.Readable domain) = R.services := (filter_sublist.trans hsub).eq_of_length hlen
  have hptrs : ptrs = R.services := hsub.eq_of_length_le (by rw [← hlen]; exact length_filter_le ..)
  have hsrvs : srvs = R.services := h.known.sublist.eq_of_length_le (by rw [← hptrs]; exact h.served.length_le)
  rw [hall] at hperm
  have hreadable : ∀ s ∈ R.services, s.Readable domain := by
    intro s hs
    rw [← hall] at hs
    exact of_decide_eq_true (mem_filter.mp hs).2
  have htold : ∀ x ∈ services, ∃ s ∈ R.services,
      s.reading domain ipaddr (heardTexts (textRead services) txts.reverse s.fqsn.labels) = advertOf ipaddr domain x :=
    fun x hx => List.mem_map.mp (hperm.mem_iff.mpr (List.mem_map_of_mem hx))
  have hzone : underscore ∉ domain.1 := by
    obtain ⟨x, hx⟩ := exists_mem_of_ne_nil _ hservices
    obtain ⟨s, -, heq⟩ := htold x hx
    have hdomain : labelText false domain.1 = domain.1 := congrArg Advert.domain heq
    exact (labelText_eq_self_iff _).mp hdomain
  have htypes : ∀ x ∈ services, underscore ∉ x.1.servtype.1 := by
    intro x hx
    obtain ⟨s, -, heq⟩ := htold x hx
    have htype : labelText false s.service.servtype.1 = x.1.servtype.1 := congrArg Advert.servtype heq
    rw [← htype]
    exact underscore_not_mem_labelText _
  -- the advertisement of a service can only be its own
  have htext : ∀ x ∈ services, ∀ s ∈ R.services, Admitted domain x s.service →
      heardTexts (textRead services) txts.reverse s.fqsn.labels = x.2.2.map Subtype.val := by
    intro x hx s hs hadm
    obtain ⟨s', hs', heq⟩ := htold x hx
    obtain ⟨x', hx', hadm'⟩ := hpair.right hs'
    have hname : s'.service.servname = x.1.servname := Subtype.ext (congrArg Advert.servname heq)
    have htype : s'.service.servtype = x.1.servtype := by
      have htype : labelText false s'.service.servtype.1 = x.1.servtype.1 := congrArg Advert.servtype heq
      rw [(labelText_eq_self_iff _).mpr (hadm'.servtype ▸ htypes x' hx')] at htype
      exact Subtype.ext htype
    have hproto : s'.service.proto = x.1.proto := congrArg Advert.proto heq
    have hkey : s'.service.key = s.service.key := by
      rw [hadm.key, Service.key, hname, htype, hproto, Service.key]
    obtain rfl := inj_on_of_nodup_map (hpair.keys ▸ hkeys) hs' hs hkey
    exact congrArg Advert.keyvals heq
  have hheard : ∀ x ∈ services, ∀ s ∈ R.services, Admitted domain x s.service → ∀ text, x.2.2 = some text →
      s ∈ txts ∧ readBack text = text.1 := by
    intro x hx s hs hadm text hx2
    have hread := htext x hx s hs hadm
    rw [hx2] at hread
    by_cases hmem : s ∈ txts
    · rw [h.heard_mem hmem, textRead_eq hkeys hx hadm hx2] at hread
      exact ⟨hmem, some.inj hread⟩
    · rw [h.heard_not_mem (hsrvs ▸ hs) hmem] at hread
      cases hread
  obtain ⟨x₀, hx₀⟩ := exists_mem_of_ne_nil _ hservices
  obtain ⟨s₀, hs₀, hadm₀⟩ := hpair.left hx₀
  have hread₀ := hadm₀.readable.mp (hreadable s₀ hs₀)
  refine ⟨hip, ?_, ⟨hread₀.2.2.1, hread₀.2.2.2, hzone⟩, ?_, ?_, ?_⟩
  · -- if some records are not read, the last TXT record is among them
    rw [← hpair.records R.fqdn, maxAnswers]
    by_contra hmany
    rcases hr.cut (by omega) with hne | ⟨front, last, hfront, hlast, htxts⟩
    · exact hne hptrs
    · have hs : last ∈ R.services := by
        rw [hfront]
        exact mem_append_right front (mem_singleton.mpr rfl)
      obtain ⟨x, hx, hadm⟩ := hpair.right hs
      rw [hadm.hasTxt] at hlast
      obtain ⟨text, hx2⟩ := isSome_iff_exists.mp hlast
      have hmem := htxts.subset (hheard x hx last hs hadm text hx2).1
      have hnodup : (R.services.map (·.service.key)).Nodup := hpair.keys ▸ hkeys
      have hnodup := hnodup.of_map
      rw [hfront, nodup_append] at hnodup
      exact hnodup.2.2 last hmem last (mem_singleton.mpr rfl) rfl
  · intro x hx
    obtain ⟨s, hs, hadm⟩ := hpair.left hx
    exact ⟨hadm.servname ▸ h.named s (hsrvs ▸ hs), (hadm.readable.mp (hreadable s hs)).1⟩
  · intro x hx
    obtain ⟨s, hs, hadm⟩ := hpair.left hx
    exact ⟨(hadm.readable.mp (hreadable s hs)).2.1, htypes x hx⟩
  · intro x hx text hx2
    obtain ⟨s, hs, hadm⟩ := hpair.left hx
    have hconv := hadm.keyvals
    rw [show x.2.2 = some text from hx2] at hconv
    exact (readBack_eq_iff hconv.2.1).mp (hheard x hx s hs hadm text hx2).2

end limits

section delivery
variable {q q' : Querier n k} {m packet found : Message} {R : NamedResponder} {r : Responder}
  {hostname domain : CString} {services : List Wanted} {ipaddr elapsed : Nat} {x : Wanted}
  {ptrs srvs txts : List NamedService}

/-- The querier monitors the types of the services, and no names that are none. -/
structure Querier.Watches (q : Querier n k) (domain : CString) (services : List Wanted) : Prop where
  types : ∀ c ∈ q.smonsActive, WfName (q.smons c).fqst ∨
    ∃ x ∈ services, At (q.smons c).fqst 0 (encodeName (x.1.suffix domain))
  monitored : ∀ x ∈ services, ∃ c ∈ q.smonsActive, At (q.smons c).fqst 0 (encodeName (x.1.suffix domain))

/-- The packet is got through, if there is something to tell, and for each advertisement there is one callback that
says `DISCOVERED`, with its data; there are no others. -/
structure Querier.Delivers (q : Querier n k) (packet : Message) (elapsed : Nat) (adverts : List Advert) : Prop where
  returns : adverts ≠ [] → ∃ q', Comes (fun fuel => step fuel q (.response packet.data packet.cur elapsed)) (some q')
  told : ∀ q', Comes (fun fuel => step fuel q (.response packet.data packet.cur elapsed)) (some q') →
    ∃ new, q'.log = new ++ q.log ∧ ((new.filter (·.status = .discovered)).map Report.advert).Perm adverts

theorem Admitted.suffix {s : Service} (h : Admitted domain x s) : s.suffix domain = x.1.suffix domain := by
  rw [Service.suffix, h.servtype, h.proto, Service.suffix]

theorem Admitted.nameOf_type {s : Service} {fqst : Mem} (h : Admitted domain x s) (hdomain : domain.1.length ≤ 63)
    (htype : s.servtype.1.length ≤ 62) (hat : At fqst 0 (encodeName (x.1.suffix domain))) :
    NameOf fqst (s.kind domain) := by
  rw [← h.suffix] at hat
  have hsize := h.size
  have hlen := length_serviceName domain s s.servname.1
  rw [length_encodeName_cons] at hlen
  refine nameOf_wireLabels hat (Service.suffix_lt hdomain htype) ?_
  rw [maxNameLen]
  omega

theorem NameOf.wfName {fqst : Mem} {ls : Labels} (h : NameOf fqst ls) : WfName fqst := by
  rw [WfName, h.plainLabels]
  exact h.expands

theorem Querier.Watches.typed (h : q.Watches domain services) (hpair : Paired domain services R.services)
    (hdomain : domain.1.length ≤ 63) (htypes : ∀ s ∈ R.services, s.service.servtype.1.length ≤ 62) : q.Typed := by
  intro c hc
  rcases h.types c hc with hw | ⟨x, hx, hat⟩
  · exact hw
  · obtain ⟨s, hs, hadm⟩ := hpair.left hx
    exact (hadm.nameOf_type hdomain (htypes s hs) hat).wfName

theorem Querier.Watches.monitorOf (h : q.Watches domain services) (hpair : Paired domain services R.services)
    (hdomain : domain.1.length ≤ 63) (htypes : ∀ s ∈ R.services, s.service.servtype.1.length ≤ 62) :
    ∀ s ∈ R.services, (q.monitorOf (s.service.kind domain)).isSome := by
  intro s hs
  obtain ⟨x, hx, hadm⟩ := hpair.right hs
  obtain ⟨c, hc, hat⟩ := h.monitored x hx
  rw [Querier.monitorOf, find?_isSome]
  exact ⟨c, hc, decide_eq_true (hadm.nameOf_type hdomain (htypes s hs) hat).plainLabels⟩

theorem step_response_comes (hparse : Comes (fun fuel => mdnsParseMessage fuel packet.data packet.cur) (.ok found))
    {o : Option (Querier n k)} (h : Comes (fun fuel => updateServiceCache fuel elapsed q found) o) :
    Comes (fun fuel => step fuel q (.response packet.data packet.cur elapsed)) o := by
  obtain ⟨a, ha⟩ := hparse
  obtain ⟨b, hb⟩ := h
  refine ⟨max a b, ?_⟩
  intro fuel hfuel
  simp only [step, ha fuel (by omega), hb fuel (by omega)]

theorem cache_of_step_response (hparse : Comes (fun fuel => mdnsParseMessage fuel packet.data packet.cur) (.ok found))
    (h : Comes (fun fuel => step fuel q (.response packet.data packet.cur elapsed)) (some q')) :
    ∃ fuel, updateServiceCache fuel elapsed q found = some q' := by
  obtain ⟨a, ha⟩ := hparse
  obtain ⟨b, hb⟩ := h
  have hstep := hb (max a b) (by omega)
  simp only [step, ha (max a b) (by omega)] at hstep
  exact ⟨_, hstep⟩

theorem Querier.Delivers.labels_fit (h : q.Delivers packet elapsed (services.map (advertOf ipaddr domain)))
    {G : Guard n k} (hrun : Run G q) (hx : x ∈ services) :
    x.1.servname.1.length < maxLabelLen ∧ x.1.servtype.1.length < maxLabelLen := by
  obtain ⟨q', hq'⟩ := h.returns (ne_nil_of_mem (List.mem_map_of_mem hx))
  obtain ⟨new, hlog, hperm⟩ := h.told q' hq'
  obtain ⟨fuel, hstep⟩ := hq'
  have hfit := (hrun.vouched (fun _ _ hc => hc.labelsFit) (labelsFit_blank none)).step (fun _ _ hc => hc.labelsFit)
    (labelsFit_blank none) hrun.tidy (hstep fuel le_rfl)
  obtain ⟨report, hreport, hadvert⟩ := List.mem_map.mp (hperm.mem_iff.mpr (List.mem_map_of_mem hx))
  obtain ⟨i, hi, hshows⟩ := hfit.reports report (hlog ▸ mem_append_left _ (mem_filter.mp hreport).1)
  have hname : report.servname = x.1.servname.1 := congrArg Advert.servname hadvert
  have htype : report.servtype = x.1.servtype.1 := congrArg Advert.servtype hadvert
  rw [← hname, ← htype, hshows.servname, hshows.servtype]
  exact ⟨hi.servname, hi.servtype⟩

theorem not_delivers_nameless {s : NamedService}
    (hconveys : found.Conveys R ptrs srvs txts)
    (hparse : Comes (fun fuel => mdnsParseMessage fuel packet.data packet.cur) (.ok found))
    (hroom : ptrs.length < q.sinstsFree.length) (hactive : q.smonsActive ≠ []) (hs : s ∈ srvs)
    (hroot : s.fqsn.labels = [])
    {adverts : List Advert} (hadverts : adverts ≠ []) : ¬ q.Delivers packet elapsed adverts := by
  intro h
  obtain ⟨q', hq'⟩ := h.returns hadverts
  obtain ⟨fuel, hcache⟩ := cache_of_step_response hparse hq'
  obtain ⟨rs, last, hptrs, hrs, -⟩ := hconveys.ptr
  have hlen : found.ptrs.length ≤ q.sinstsFree.length := by
    rw [hptrs, length_append, ← hrs.length_eq, length_reverse]
    exact hroom
  obtain ⟨r, hr, hrec⟩ := forall₂_right_mem hconveys.srv.flip s (mem_reverse.mpr hs)
  have hwritten := hrec.written
  have htype := hrec.typeBytes
  rw [show (s.srv R.fqdn 255).owner.labels = [] from hroot] at hwritten htype
  have htype : byte found.data (r.name + 1) = (UInt8.ofNat (tSrv / 256)).toNat := htype.byte
  exact updateServiceCache_nameless hcache hconveys.response hlen hactive r hr hwritten.byte htype

/-- A type of 63 bytes is read as a pointer, but no such type is ever shown. -/
theorem delivered_iff_of_long_type {G : Guard n k} (hrun : Run G q) (hx : x ∈ services)
    (hlen : 62 < x.1.servtype.1.length) :
    q.Delivers packet elapsed (services.map (advertOf ipaddr domain)) ↔
      services = [] ∨ Compatible ipaddr domain services := by
  refine iff_of_false ?_ ?_
  · intro h
    have hfit := (h.labels_fit hrun hx).2
    rw [maxLabelLen] at hfit
    omega
  · rintro (rfl | hc)
    · cases hx
    · have hfit := (hc.types x hx).1
      rw [maxLabelLen] at hfit
      omega

theorem Paired.distinct (hpair : Paired domain services R.services) (hkeys : (services.map (·.1.key)).Nodup)
    (hR : R.Lettered hostname domain) (hknown : srvs <+: R.services)
    (hnamed : ∀ s ∈ srvs, s.service.servname.1 ≠ []) : (srvs.map (·.fqsn.labels)).Nodup := by
  have hall : (R.services.map (·.service.key)).Nodup := hpair.keys ▸ hkeys
  have hkeyed := (hknown.sublist.map (·.service.key)).nodup hall
  refine List.Nodup.map_on ?_ hkeyed.of_map
  intro s hs t ht heq
  rw [hR.fqsn s (hknown.subset hs), hR.fqsn t (hknown.subset ht), wireLabels_cons (hnamed s hs),
    wireLabels_cons (hnamed t ht)] at heq
  exact inj_on_of_nodup_map hkeyed hs ht (Service.key_of_name heq)

theorem Paired.yields (hpair : Paired domain services R.services) (hkeys : (services.map (·.1.key)).Nodup)
    (htexts : txts.Sublist (R.services.filter NamedService.hasTxt)) :
    ∀ s ∈ txts, s.Yields (textRead services s) := by
  intro s hs
  obtain ⟨hs, htext⟩ := mem_filter.mp (htexts.subset hs)
  obtain ⟨x, hx, hadm⟩ := hpair.right hs
  rw [hadm.hasTxt] at htext
  obtain ⟨text, hx2⟩ := isSome_iff_exists.mp htext
  rw [textRead_eq hkeys hx hadm hx2]
  exact hadm.yields hx2

theorem Legible.delivered_iff (h : Legible q found R hostname domain ptrs srvs txts (textRead services))
    (hr : Reached R.fqdn R.services 30 ptrs srvs txts) (hpair : Paired domain services R.services)
    (hkeys : (services.map (·.1.key)).Nodup)
    (hparse : Comes (fun fuel => mdnsParseMessage fuel packet.data packet.cur) (.ok found)) (hv : q.Vacant)
    (ht : q.Tidy) (htyped : q.Typed) (hip : R.responder.myIpaddr < 4294967296) (hroom : ptrs.length ≤ n) :
    q.Delivers packet elapsed (services.map (advertOf R.responder.myIpaddr domain)) ↔
      services = [] ∨ Compatible R.responder.myIpaddr domain services := by
  obtain ⟨o, ho, hreturns, hlog⟩ := h.cache elapsed hv ht htyped hip hroom
  have hstep := step_response_comes hparse ho
  constructor
  · intro hd
    refine or_iff_not_imp_left.mpr ?_
    intro hservices
    obtain ⟨q', hq'⟩ := hd.returns (fun hnil => hservices (map_eq_nil_iff.mp hnil))
    obtain ⟨new, hnew, hperm⟩ := hd.told q' hq'
    obtain ⟨new', hnew', hperm'⟩ := hlog q' (hstep.unique hq')
    obtain rfl : new = new' := append_cancel_right (hnew.symm.trans hnew')
    exact h.compatible hr hpair hkeys hservices (hperm'.symm.trans hperm)
  · intro hfits
    have hequal : readings domain R.responder.myIpaddr (heardTexts (textRead services) txts.reverse)
        (ptrs.filter (·.Readable domain)) = services.map (advertOf R.responder.myIpaddr domain) := by
      rcases hfits with rfl | hc
      · have hnone : R.services = [] := forall₂_nil_left_iff.mp hpair
        have hptrs : ptrs = [] := prefix_nil.mp (hnone ▸ hr.served.trans hr.known)
        rw [hptrs]
        simp [readings]
      · exact h.readings_eq hr hpair hkeys hc
    refine ⟨?_, ?_⟩
    · intro hne
      have hservices : services ≠ [] := fun hnil => hne (by rw [hnil]; rfl)
      have hc := hfits.resolve_left hservices
      have hsrvs : srvs ≠ [] := by
        have hrec := hc.records
        rw [← hpair.records R.fqdn, maxAnswers] at hrec
        rw [(hr.whole (by omega)).2.1]
        intro hnil
        rw [hnil] at hpair
        exact hservices (forall₂_nil_right_iff.mp hpair)
      obtain ⟨q', hq'⟩ := isSome_iff_exists.mp (hreturns (h.copies hc.zone.1 hsrvs))
      exact ⟨q', hq' ▸ hstep⟩
    · intro q' hq'
      obtain ⟨new, hnew, hperm⟩ := hlog q' (hstep.unique hq')
      exact ⟨new, hnew, hequal ▸ hperm⟩

/-- End to end: an announcement reaches the user of a querier with an empty cache, as it was advertised, exactly if it
keeps to the limits of both sides. -/
theorem announcement_delivered_iff {fuel : Nat} {fqdn : Mem} {tx rx : Message}
    (hlaunch : responderLaunch fuel ipaddr domain hostname services fqdn tx rx = some (.ok r))
    (hip : ipaddr < 4294967296) (hports : ∀ x ∈ services, x.1.port < 65536) (hkeys : (services.map (·.1.key)).Nodup)
    (hpacket : prepareAnnouncement r m 255 = (packet, 0)) (hrun : Run ({} : Guard n k) q) (hv : q.Vacant)
    (hw : q.Watches domain services) (hroom : services.length < n) :
    q.Delivers packet elapsed (services.map (advertOf ipaddr domain)) ↔
      services = [] ∨ Compatible ipaddr domain services := by
  have hold := responderLaunch_holding hlaunch
  have hlong : ∀ s ∈ r.services, ∃ x ∈ services, Admitted domain x s := forall₂_right_mem hold.admitted
  by_cases htypes : ∀ s ∈ r.services, s.servtype.1.length ≤ 62
  swap
  · obtain ⟨s, hs, hlen⟩ : ∃ s ∈ r.services, 62 < s.servtype.1.length := by
      by_contra hall
      exact htypes (fun s hs => Nat.le_of_not_lt (fun hlt => hall ⟨s, hs, hlt⟩))
    obtain ⟨x, hx, hadm⟩ := hlong s hs
    exact delivered_iff_of_long_type hrun hx (hadm.servtype ▸ hlen)
  obtain ⟨R, rfl, hR⟩ := hold.named htypes
  have hpair : Paired domain services R.services := by
    have hadmitted := hold.admitted
    rw [← R.services_eq] at hadmitted
    exact forall₂_map_right_iff.mp hadmitted
  have htypes : ∀ s ∈ R.services, s.service.servtype.1.length ≤ 62 := by
    intro s hs
    refine htypes s.service ?_
    rw [← R.services_eq]
    exact List.mem_map_of_mem hs
  have htyped : R.responder.Typed := by
    refine ⟨hold.myIpaddr ▸ hip, ?_⟩
    intro s hs
    obtain ⟨x, hx, hadm⟩ := hlong s hs
    exact hadm.port ▸ hports x hx
  obtain ⟨found, rs, hparse, hrecords⟩ := NamedResponder.announcement_parsed htyped hpacket
  obtain ⟨ptrs, srvs, txts, hr⟩ := exists_reached R.fqdn R.services 30
  have hconveys := hrecords.conveys hr
  have hfew : ptrs.length < n := by
    have hle := (hr.served.trans hr.known).length_le
    rw [← hpair.length_eq] at hle
    omega
  by_cases hnamed : ∀ s ∈ srvs, s.service.servname.1 ≠ []
  · have hwatched : ∀ s ∈ srvs, (q.monitorOf s.ptr.labels).isSome := by
      intro s hs
      rw [hR.ptr s (hr.known.subset hs)]
      exact hw.monitorOf hpair hold.domainShort htypes s (hr.known.subset hs)
    have hlegible : Legible q found R hostname domain ptrs srvs txts (textRead services) :=
      ⟨hR, hconveys, hr.served, hr.known, hr.told, hnamed, hpair.distinct hkeys hR hr.known hnamed, hwatched,
        hpair.yields hkeys hr.texts⟩
    rw [← hold.myIpaddr]
    exact hlegible.delivered_iff hr hpair hkeys hparse hv hrun.tidy (hw.typed hpair hold.domainShort htypes)
      htyped.ipaddr hfew.le
  · -- a service without a name
    obtain ⟨s, hs, hnil⟩ : ∃ s ∈ srvs, s.service.servname.1 = [] := by
      by_contra hall
      exact hnamed (fun s hs hnil => hall ⟨s, hs, hnil⟩)
    obtain ⟨x, hx, hadm⟩ := hpair.right (hr.known.subset hs)
    have hroot : s.fqsn.labels = [] := by
      rw [hR.fqsn s (hr.known.subset hs), hnil]
      rfl
    obtain ⟨c, hc, -⟩ := hw.monitored x hx
    refine iff_of_false ?_ ?_
    · refine not_delivers_nameless hconveys hparse ?_ (ne_nil_of_mem hc) hs hroot
        (ne_nil_of_mem (List.mem_map_of_mem hx))
      rw [hv.length_free hrun.tidy]
      exact hfew
    · rintro (rfl | hc)
      · cases hx
      · exact (hc.names x hx).1 (hadm.servname ▸ hnil)

end delivery

section inputs

theorem exists_http_monitor : ∃ q : Querier 2 1, Run ({} : Guard 2 1) q ∧ q.Vacant ∧ q.smonsActive = [0] ∧
    (q.smons 0).fqst = httpType := by
  have h : (guardedStep ({} : Guard 2 1) 60 (queryLaunch 2 1) (.monitor httpType)).any (fun q =>
      decide ((∀ s, s ∈ q.sinstsFree) ∧ q.arecsActive = [] ∧ (∀ a, (q.arecs a).sinsts = []) ∧ q.smonsActive = [0] ∧
        (q.smons 0).fqst = httpType)) = true := by decide +kernel
  obtain ⟨q, hq, hparts⟩ := (Option.any_eq_true _ _).mp h
  obtain ⟨hfree, hhosts, hreferrers, hactive, hfqst⟩ := of_decide_eq_true hparts
  exact ⟨q, .step .launch hq, ⟨hfree, hhosts, hreferrers⟩, hactive, hfqst⟩

/-- `name._http._tcp.local`. -/
def httpService (name : CString) (text : Option CString) : Wanted :=
  ({ servname := name, servtype := httpServtype, port := 80, proto := .tcp,
     fqsn := replicate 255 0 }, 0, text)

def httpLaunch (name : CString) (text : Option CString) : Option (Except LaunchError Responder) :=
  responderLaunch 8 167772161 localDomain fooName [httpService name text] (replicate 256 0) blankMessage blankMessage

theorem exists_httpPacket (name : CString) (text : Option CString)
    (h : (httpLaunch name text).any (·.toOption.any fun r =>
      (prepareAnnouncement r blankMessage 255).2 = 0) = true) :
    ∃ r packet, httpLaunch name text = some (.ok r) ∧ prepareAnnouncement r blankMessage 255 = (packet, 0) := by
  obtain ⟨r, hlaunch, hret⟩ := exists_ok_of_any h
  exact ⟨r, _, hlaunch, Prod.ext rfl (of_decide_eq_true hret)⟩

theorem watches_http {q : Querier 2 1} (hactive : q.smonsActive = [0])
    (hfqst : (q.smons 0).fqst = httpType) (name : CString)
    (text : Option CString) : q.Watches localDomain [httpService name text] := by
  have hat : At (q.smons 0).fqst 0 (encodeName ((httpService name text).1.suffix localDomain)) := by
    rw [hfqst]
    exact ⟨[], [], rfl, rfl⟩
  refine ⟨?_, ?_⟩
  · intro c hc
    rw [hactive, mem_singleton] at hc
    exact .inr ⟨_, mem_singleton.mpr rfl, hc ▸ hat⟩
  · intro x hx
    rw [mem_singleton] at hx
    refine ⟨0, ?_, hx ▸ hat⟩
    rw [hactive]
    exact mem_singleton.mpr rfl

/-- `k=v` for a service `a` comes through. -/
theorem announcement_delivered_http : ∃ r packet, ∃ q : Querier 2 1,
    httpLaunch ⟨[97], by decide⟩ (some ⟨[107, 61, 118], by decide⟩) = some (.ok r) ∧
    prepareAnnouncement r blankMessage 255 = (packet, 0) ∧ Run ({} : Guard 2 1) q ∧ q.Vacant ∧
    q.Delivers packet 0 [⟨[97], [104, 116, 116, 112], .tcp, localDomain.1, 167772161, some [107, 61, 118]⟩] := by
  obtain ⟨r, packet, hlaunch, hpacket⟩ :=
    exists_httpPacket ⟨[97], by decide⟩ (some ⟨[107, 61, 118], by decide⟩) (by decide +kernel)
  obtain ⟨q, hrun, hv, hactive, hfqst⟩ := exists_http_monitor
  refine ⟨r, packet, q, hlaunch, hpacket, hrun, hv, ?_⟩
  refine (announcement_delivered_iff hlaunch (by decide) ?_ ?_ hpacket hrun hv (watches_http hactive hfqst _ _)
    (by decide)).mpr (.inr ⟨by decide, by decide, by decide, ?_, ?_, ?_⟩)
  all_goals decide

/-- A service name of 63 bytes is accepted and announced, and nobody is told of it. -/
theorem announcement_long_name_lost : ∃ r packet, ∃ q : Querier 2 1,
    httpLaunch (longName 97 63 (by decide)) none = some (.ok r) ∧ prepareAnnouncement r blankMessage 255 = (packet, 0) ∧
    Run ({} : Guard 2 1) q ∧ q.Vacant ∧ q.Watches localDomain [httpService (longName 97 63 (by decide)) none] ∧
    ¬ q.Delivers packet 0 ([httpService (longName 97 63 (by decide)) none].map (advertOf 167772161 localDomain)) := by
  obtain ⟨r, packet, hlaunch, hpacket⟩ := exists_httpPacket (longName 97 63 (by decide)) none (by decide +kernel)
  obtain ⟨q, hrun, hv, hactive, hfqst⟩ := exists_http_monitor
  refine ⟨r, packet, q, hlaunch, hpacket, hrun, hv, watches_http hactive hfqst _ _, ?_⟩
  intro h
  exact absurd (h.labels_fit hrun (mem_singleton.mpr rfl)).1 (by decide)

end inputs

end Mdns
