import Mdns.Discover.Adopt

/-!
# The texts, the host and the address

The TXT, SRV and A records of an announcement, once its PTR records have taken their slots. Each
slot is told to the user with the address, unless that is the zero that it has from the start.
-/
namespace Mdns
open Lib List Option
open Function (update update_of_ne update_self)

variable {n k : Nat} {q : Querier n k} {m : Message} {domain : CString} {mon : Labels → Option (Fin k)} {host : Labels}
  {xs : List (NamedService × Fin n)} {kv : Labels → Option (List UInt8)}
  {room : Labels → Option (Fin n)} {s : NamedService}
  {r : Resource}

section texts
variable {text : List UInt8} {ss : List NamedService}

/-- The text that the querier reads from the TXT record of a service, wherever that is. -/
def NamedService.Yields (s : NamedService) (text : List UInt8) : Prop :=
  ∀ p r e, s.txt 255 = [e] → RecordOf p e r →
    Comes (fun fuel => txtToCNcpy fuel (maxKeyvalLen + 1) p r.rdata r.rdlength) (some text)

theorem NamedService.txt_owner {e : Entry WireName} (h : s.txt 255 = [e]) : e.owner = s.fqsn := by
  unfold NamedService.txt at h
  split at h
  · cases h
  · cases h
    rfl

theorem updateTxt_first {i : ServiceInstance n k} {p : Mem} (hi : i.keyvals = none)
    (htext : Comes (fun fuel => txtToCNcpy fuel (maxKeyvalLen + 1) p r.rdata r.rdlength) (some text)) :
    ∃ raw len, Comes (fun fuel => updateTxt fuel i p r)
      (some ({ i with rawkeyvals := raw, rawkvlen := len, keyvals := some text }, 1)) := by
  unfold updateTxt
  simp only [hi, true_or, if_true]
  exact ⟨_, _, comes_bind_some htext (comes_const _)⟩

theorem Stock.txtStep (elapsed : Nat) (h : Stock domain mon host xs kv (fun _ => none) q)
    (hs : Posted domain mon host s)
    (hkv : kv s.fqsn.labels = none) (hname : Expands (.packet m.data) r.name s.fqsn.labels)
    (htext : Comes (fun fuel => txtToCNcpy fuel (maxKeyvalLen + 1) m.data r.rdata r.rdlength) (some text)) :
    ∃ q', Comes (fun fuel => txtStep fuel elapsed m q r) (some q') ∧
      Stock domain mon host xs (update kv s.fqsn.labels (some text)) (fun _ => none) q' ∧ SameHosts q q' ∧
      q'.log = q.log := by
  have hinst := h.sinstOf hs hname
  cases hslot : slotIn xs s.fqsn.labels with
  | none =>
    rw [hslot] at hinst
    refine ⟨q, comes_bind_some hinst (comes_const _), ?_, ⟨rfl, rfl, rfl⟩, rfl⟩
    exact h.mono hslot (fun N hN => update_of_ne hN ..) (fun _ _ => rfl)
  | some t =>
    rw [hslot] at hinst
    obtain ⟨x, hx, hlabels, rfl⟩ := mem_of_slotIn hslot
    have hentry := h.entry x hx
    have hnone : (q.sinsts x.2).keyvals = none := by
      have hkeyvals := congrArg Advert.keyvals hentry.advert
      rw [hlabels, hkv] at hkeyvals
      exact hkeyvals
    obtain ⟨raw, len, htxt⟩ := updateTxt_first hnone htext
    obtain ⟨c, hc⟩ := isSome_iff_exists.mp (h.posted x hx).watched
    have howner : (q.sinsts x.2).smon = some c := (h.owner x hx).trans hc
    obtain ⟨q', hcomes, hreacts⟩ := updateSinst_comes elapsed (s := x.2) (u := .txt m r) (c := c)
      (comes_bind_some htxt (comes_const (some (q.setSinst x.2 _, 1)))) (by rw [setSinst_self]; exact howner)
    have hstep : Comes (fun fuel => Mdns.txtStep fuel elapsed m q r) (some q') := comes_bind_some hinst hcomes
    have hadv : Advances (policy False) q.smonsActive q q' := by
      obtain ⟨fuel, hf⟩ := hstep
      exact txtStep_advances h.firm.linked (hf fuel le_rfl)
    -- without an SRV record the instance is not ready
    rcases hreacts.init_log (by rw [setSinst_self]; exact hentry.state) with ⟨rfl, -⟩ | ⟨hready, -⟩
    · refine ⟨_, hstep, ?_, ⟨rfl, rfl, rfl⟩, rfl⟩
      refine h.change hx hadv rfl (fun t ht => setSinst_others q x.2 _ ht) ?_ ?_ ?_ ?_ (fun _ _ => rfl)
      · rw [setSinst_self]
      · rw [setSinst_self]
      · rw [setSinst_self, hlabels, update_self]
        refine ⟨?_, hentry.state, hentry.arec, hentry.hasSrv⟩
        exact congrArg (fun a : Advert => { a with keyvals := some text }) hentry.advert
      · rw [hlabels]
        exact fun N hN => update_of_ne hN ..
    · rw [setSinst_self, ServiceInstance.isReady] at hready
      simp [hentry.hasSrv] at hready

def heardTexts (said : NamedService → List UInt8) (ss : List NamedService) : Labels → Option (List UInt8) :=
  fun N => (ss.find? (·.fqsn.labels = N)).map said

theorem heardTexts_self (said : NamedService → List UInt8) (s : NamedService) (ss : List NamedService) :
    heardTexts said (s :: ss) s.fqsn.labels = some (said s) := by simp [heardTexts]

theorem heardTexts_of_ne (said : NamedService → List UInt8) (ss : List NamedService) {N : Labels}
    (hN : s.fqsn.labels ≠ N) :
    heardTexts said (s :: ss) N = heardTexts said ss N := by simp [heardTexts, hN]

theorem heardTexts_eq_none {said : NamedService → List UInt8} {N : Labels}
    (h : N ∉ ss.map (·.fqsn.labels)) : heardTexts said ss N = none := by
  rw [heardTexts, map_eq_none_iff, find?_eq_none]
  intro s hs heq
  exact h (List.mem_map.mpr ⟨s, hs, of_decide_eq_true heq⟩)

theorem Stock.txts (elapsed : Nat) {said : NamedService → List UInt8} {rs : List Resource}
    (hrs : Forall₂ (fun s r => ∃ e, s.txt 255 = [e] ∧ RecordOf m.data e r) ss rs)
    (h : Stock domain mon host xs kv (fun _ => none) q) (hss : ∀ s ∈ ss, Posted domain mon host s ∧ s.Yields (said s))
    (hnodup : (ss.map (·.fqsn.labels)).Nodup) (hkv : ∀ s ∈ ss, kv s.fqsn.labels = none) :
    ∃ q', Comes (fun fuel => runAll (Mdns.txtStep fuel elapsed m) rs q) (some q') ∧
      Stock domain mon host xs (fun N => (heardTexts said ss N).or (kv N)) (fun _ => none) q' ∧ SameHosts q q' ∧
      q'.log = q.log := by
  induction hrs generalizing q kv with
  | nil => exact ⟨q, comes_const _, h, ⟨rfl, rfl, rfl⟩, rfl⟩
  | @cons s r ss rs hr _ ih =>
    obtain ⟨e, he, hr⟩ := hr
    obtain ⟨⟨hs, hyields⟩, hss⟩ := forall_mem_cons.mp hss
    obtain ⟨hnew, hnodup⟩ := nodup_cons.mp hnodup
    obtain ⟨hkvs, hkv⟩ := forall_mem_cons.mp hkv
    have hname := hr.name
    rw [NamedService.txt_owner he] at hname
    obtain ⟨q₁, hstep, h₁, hsame, hlog⟩ := h.txtStep elapsed hs hkvs hname (hyields _ _ _ he hr)
    have hkv₁ : ∀ s' ∈ ss, update kv s.fqsn.labels (some (said s)) s'.fqsn.labels = none := by
      intro s' hs'
      rw [update_of_ne]
      · exact hkv s' hs'
      · intro heq
        exact hnew (List.mem_map.mpr ⟨s', hs', heq⟩)
    obtain ⟨q', hrun, h', hsame', hlog'⟩ := ih h₁ hss hnodup hkv₁
    refine ⟨q', comes_runAll_cons hstep hrun, ?_, hsame.trans hsame', hlog'.trans hlog⟩
    have heq : (fun N => (heardTexts said (s :: ss) N).or (kv N)) =
        fun N => (heardTexts said ss N).or (update kv s.fqsn.labels (some (said s)) N) := by
      funext N
      by_cases hN : s.fqsn.labels = N
      · subst hN
        rw [heardTexts_self, heardTexts_eq_none hnew, update_self]
        rfl
      · rw [heardTexts_of_ne said ss hN, update_of_ne (Ne.symm hN)]
    rw [heq]
    exact h'

end texts

section hosts
variable {b : Option (Fin n)} {i : ServiceInstance n k} {fqdn : WireName}

/-- There is no A record yet, or the one of the host without an address. -/
structure Housed (host : Labels) (b : Option (Fin n)) (q : Querier n k) : Prop where
  active : q.arecsActive = b.toList
  spare : b = none → 0 < n → q.arecsFree ≠ []
  blank : ∀ a ∈ b, plainLabels (q.arecs a).fqdn = host ∧ (q.arecs a).state = .init ∧ (q.arecs a).ipaddr = 0

theorem Housed.arecOf (h : Housed host b q) : q.arecOf host = b := by
  rw [Querier.arecOf, h.active]
  cases b with
  | none => rfl
  | some a => simp [(h.blank a rfl).1]

theorem Querier.WellNamed.setSinst (hw : q.WellNamed) {t : Fin n} (hi : i.fqsn = (q.sinsts t).fqsn) :
    (q.setSinst t i).WellNamed := by
  refine ⟨hw.monitors, ?_, hw.arecs⟩
  intro c u hu
  by_cases hut : u = t
  · rw [hut, setSinst_self, hi]
    exact hw.slots c t (hut ▸ hu)
  · rw [setSinst_others q t i hut]
    exact hw.slots c u hu

/-- The A record that an SRV record is lodged with, as `update_srv` finds or makes it: `p` is the state in which
the slot is put on its list. -/
theorem Housed.hostSrv (h : Housed host b q) {t : Fin n} (hw : (q.setSinst t i).WellNamed)
    (hhost : fqdn.labels = host) (htarget : At m.data (srvTarget r) (encodeName fqdn.labels)) :
    ∃ p a, Comes (fun fuel => hostSrv fuel (q.setSinst t i) t m r) (setArec p t a) ∧
      p.sinsts = (q.setSinst t i).sinsts ∧
      p.sinstsFree = q.sinstsFree ∧ p.log = q.log ∧ p.arecsActive = [a] ∧ (b = none ∨ b = some a) ∧
      plainLabels (p.arecs a).fqdn = host ∧ (p.arecs a).state = .init ∧ (p.arecs a).ipaddr = 0 := by
  have hexp : Expands (.packet m.data) (srvTarget r) host := hhost ▸ expands_encodeName fqdn.sizes htarget
  have hfind := findArec_comes hw hexp
  have hfound : (q.setSinst t i).arecOf host = b := h.arecOf
  rw [hfound] at hfind
  cases b with
  | some a =>
    obtain ⟨hname, hstate, hip⟩ := h.blank a rfl
    exact ⟨q.setSinst t i, a, comes_bind_some hfind (comes_const _), rfl, rfl, rfl, h.active, .inr rfl,
      hname, hstate, hip⟩
  | none =>
    obtain ⟨a, free, hfree⟩ := exists_cons_of_ne_nil (h.spare rfl t.pos)
    have hcopy := dnameCopy_comes fqdn.sizes htarget fqdn.fits
    have hactive : (q.setSinst t i).arecsActive = [] := h.active
    have hfree : (q.setSinst t i).arecsFree = a :: free := hfree
    refine ⟨{ q.setSinst t i with arecsFree := free, arecsActive := a :: (q.setSinst t i).arecsActive }.setArec a
      { sinsts := [], fqdn := encodeName fqdn.labels }, a, comes_bind_some hfind ?_, rfl, rfl, rfl, ?_,
        .inl rfl, ?_, ?_, ?_⟩
    · simp only [hfree]
      exact comes_bind_some hcopy (comes_const _)
    · show a :: (q.setSinst t i).arecsActive = [a]
      rw [hactive]
    · rw [setArec_self]
      exact (plainLabels_eq (expands_encodeName fqdn.sizes ⟨[], [], by simp, rfl⟩)).trans hhost
    · rw [setArec_self]
    · rw [setArec_self]

/-- The SRV record of a service: if the service has a slot, the slot is put on the list of the A record. -/
theorem Stock.srvStep (elapsed : Nat) (h : Stock domain mon host xs kv room q) (hb : Housed host b q)
    (hroom : ∀ N, room N = none ∨ room N = b) (hs : Posted domain mon host s) (hfresh : room s.fqsn.labels = none)
    (hhost : fqdn.labels = host) (hr : RecordOf m.data (s.srv fqdn 255) r) :
    ∃ q' b' room', Comes (fun fuel => srvStep fuel elapsed m q r) (some q') ∧ Stock domain mon host xs kv room' q' ∧
      Housed host b' q' ∧ (∀ N, room' N = none ∨ room' N = b') ∧
      (slotIn xs s.fqsn.labels ≠ none → (room' s.fqsn.labels).isSome) ∧
      (∀ N, N ≠ s.fqsn.labels → room' N = room N) ∧ q'.log = q.log := by
  have hinst := h.sinstOf hs hr.name
  cases hslot : slotIn xs s.fqsn.labels with
  | none =>
    rw [hslot] at hinst
    exact ⟨q, b, room, comes_bind_some hinst (comes_const _), h, hb, hroom, fun hne => absurd rfl hne,
      fun _ _ => rfl, rfl⟩
  | some t =>
    rw [hslot] at hinst
    obtain ⟨x, hx, hlabels, rfl⟩ := mem_of_slotIn hslot
    have hentry := h.entry x hx
    rw [hlabels, hfresh] at hentry
    have httl : r.ttl ≠ 0 := by
      rw [hr.ttl]
      exact Nat.succ_ne_zero 254
    obtain ⟨c, hc⟩ := isSome_iff_exists.mp (h.posted x hx).watched
    have howner : (q.sinsts x.2).smon = some c := (h.owner x hx).trans hc
    have htarget : At m.data (srvTarget r) (encodeName fqdn.labels) := by
      have hdata : At m.data r.rdata ((setUint16 0 ++ setUint16 0 ++ setUint16 s.service.port) ++
        encodeName fqdn.labels) := hr.rdata
      exact hdata.drop
    let i : ServiceInstance n k := { q.sinsts x.2 with port := srvPort m.data r }
    obtain ⟨p, a, hhostSrv, hsinsts, hfree, hlog, hactive, hba, hname, hstate, hip⟩ :=
      hb.hostSrv (t := x.2) (i := i) (h.firm.wellNamed.setSinst rfl) hhost htarget
    obtain ⟨q₂, moved, q', hh, hstep, hlodged, hreacts⟩ :=
      srvStep_comes elapsed hinst httl howner hentry.arec hsinsts hhostSrv
    have hi : p.sinsts x.2 = i := by rw [hsinsts, setSinst_self]
    have haddr : takeAddress i (p.arecs a) = { i with hasA := false } := if_neg (by rw [hstate]; decide)
    rw [hi, lodge, haddr] at hlodged
    have hadv : Advances (policy False) q.smonsActive q q' := by
      obtain ⟨fuel, hf⟩ := hstep
      obtain ⟨fuel', hf'⟩ := hinst
      refine srvStep_advances h.firm.linked ?_ (hf (max fuel fuel') (Nat.le_max_left ..))
      intro t ht
      cases (hf' _ (Nat.le_max_right fuel fuel')).symm.trans ht
      exact ⟨fun _ _ _ => hentry.arec, fun _ _ _ _ hno => hno.elim, fun _ _ _ _ _ _ hno => hno.elim⟩
    -- the address is missing, so that the user hears nothing yet
    rcases hreacts.init_log (by rw [hlodged]; exact hentry.state) with ⟨rfl, -⟩ | ⟨hready, -⟩
    swap
    · rw [hlodged] at hready
      cases hready
    have hfree₂ : q₂.sinstsFree = p.sinstsFree := congrArg Registry.free hh.reg
    have hactive₂ : q₂.arecsActive = p.arecsActive := congrArg Registry.active hh.reg
    have hothers : ∀ t, t ≠ x.2 → (q₂.setSinst x.2 (srvTimes (q₂.sinsts x.2) r elapsed)).sinsts t = q.sinsts t := by
      intro t ht
      rw [setSinst_others _ _ _ ht, hh.sinsts, update_of_ne ht, hsinsts, setSinst_others _ _ _ ht]
    have harec := hh.arecs a
    refine ⟨_, some a, update room s.fqsn.labels (some a), hstep, ?_,
      ⟨?_, fun hnone => (by cases hnone), ?_⟩, ?_, ?_, ?_,
      hh.log.trans hlog⟩
    · refine h.change hx hadv (hfree₂.trans hfree) hothers ?_ ?_ ?_ (fun _ _ => rfl) ?_
      · rw [hlodged]
        rfl
      · rw [hlodged]
        rfl
      · rw [hlodged, hlabels, update_self]
        exact ⟨hentry.advert, hentry.state, rfl, rfl⟩
      · rw [hlabels]
        exact fun N hN => update_of_ne hN ..
    · exact hactive₂.trans hactive
    · rintro a' ⟨⟩
      show plainLabels (q₂.arecs a).fqdn = host ∧ (q₂.arecs a).state = .init ∧ (q₂.arecs a).ipaddr = 0
      rw [harec]
      exact ⟨hname, hstate, hip⟩
    · intro N
      by_cases hN : N = s.fqsn.labels
      · rw [hN, update_self]
        exact .inr rfl
      · rw [update_of_ne hN]
        rcases hroom N with hnone | hsome
        · exact .inl hnone
        · rw [hsome]
          exact hba
    · intro _
      rw [update_self]
      rfl
    · exact fun N hN => update_of_ne hN ..

theorem Stock.srvs (elapsed : Nat) {ss : List NamedService} {rs : List Resource} (hhost : fqdn.labels = host)
    (hrs : Forall₂ (fun s r => RecordOf m.data (s.srv fqdn 255) r) ss rs) (h : Stock domain mon host xs kv room q)
    (hb : Housed host b q) (hroom : ∀ N, room N = none ∨ room N = b) (hss : ∀ s ∈ ss, Posted domain mon host s)
    (hnodup : (ss.map (·.fqsn.labels)).Nodup) (hfresh : ∀ s ∈ ss, room s.fqsn.labels = none) :
    ∃ q' b' room', Comes (fun fuel => runAll (Mdns.srvStep fuel elapsed m) rs q) (some q') ∧
      Stock domain mon host xs kv room' q' ∧ Housed host b' q' ∧ (∀ N, room' N = none ∨ room' N = b') ∧
      (∀ s ∈ ss, slotIn xs s.fqsn.labels ≠ none → (room' s.fqsn.labels).isSome) ∧
      (∀ N, (∀ s ∈ ss, N ≠ s.fqsn.labels) → room' N = room N) ∧ q'.log = q.log := by
  induction hrs generalizing q b room with
  | nil => exact ⟨q, b, room, comes_const _, h, hb, hroom, nofun, fun _ _ => rfl, rfl⟩
  | @cons s r ss rs hr _ ih =>
    obtain ⟨hs, hss⟩ := forall_mem_cons.mp hss
    obtain ⟨hnew, hnodup⟩ := nodup_cons.mp hnodup
    obtain ⟨hfreshs, hfresh⟩ := forall_mem_cons.mp hfresh
    have hnew : ∀ s' ∈ ss, s.fqsn.labels ≠ s'.fqsn.labels :=
      fun s' hs' heq => hnew (List.mem_map.mpr ⟨s', hs', heq.symm⟩)
    obtain ⟨q₁, b₁, room₁, hstep, h₁, hb₁, hroom₁, hlodged, hkept, hlog⟩ :=
      h.srvStep elapsed hb hroom hs hfreshs hhost hr
    have hfresh₁ : ∀ s' ∈ ss, room₁ s'.fqsn.labels = none := by
      intro s' hs'
      rw [hkept _ (Ne.symm (hnew s' hs'))]
      exact hfresh s' hs'
    obtain ⟨q', b', room', hrun, h', hb', hroom', hall, hkept', hlog'⟩ := ih h₁ hb₁ hroom₁ hss hnodup hfresh₁
    refine ⟨q', b', room', comes_runAll_cons hstep hrun, h', hb', hroom', ?_, ?_, hlog'.trans hlog⟩
    · refine forall_mem_cons.mpr ⟨?_, hall⟩
      intro hslot
      rw [hkept' _ hnew]
      exact hlodged hslot
    · intro N hN
      obtain ⟨hNs, hN⟩ := forall_mem_cons.mp hN
      rw [hkept' N hN, hkept N hNs]

end hosts

section address
variable {b : Option (Fin n)}

theorem Stock.sinsts_perm (h : Stock domain mon host xs kv room q) {a : Fin n}
    (hroom : ∀ x ∈ xs, room x.1.fqsn.labels = some a) :
    (q.arecs a).sinsts.Perm (xs.map Prod.snd) := by
  refine (perm_ext_iff_of_nodup (h.firm.linked.referrers.nodup a) h.nodup).mpr ?_
  intro t
  refine (h.firm.linked.referrers.mem_iff a t).trans ?_
  constructor
  · rintro ⟨ht, harec⟩
    have harec : (q.sinsts t).arec = some a := harec
    rcases h.others t ht with hmem | ⟨-, hnone⟩
    · exact hmem
    · cases hnone.symm.trans harec
  · intro hmem
    obtain ⟨x, hx, rfl⟩ := List.mem_map.mp hmem
    exact ⟨h.used x hx, (h.entry x hx).arec.trans (hroom x hx)⟩

def readings (domain : CString) (ipaddr : Nat) (kv : Labels → Option (List UInt8))
    (ss : List NamedService) : List Advert :=
  if ipaddr = 0 then [] else ss.map (fun s => s.reading domain ipaddr (kv s.fqsn.labels))

theorem Stock.aStep (h : Stock domain mon host xs kv room q) (hb : Housed host b q)
    (hroom : ∀ x ∈ xs, (room x.1.fqsn.labels).isSome ∧ room x.1.fqsn.labels = b)
    (hname : Expands (.packet m.data) r.name host)
    (httl : r.ttl ≠ 0) :
    ∃ q' new, Comes (fun fuel => Mdns.aStep fuel m q r) (some q') ∧ q'.log = new ++ q.log ∧
      (∀ report ∈ new, report.status = .discovered) ∧
      (new.map Report.advert).Perm (readings domain (getUint32 m.data r.rdata) kv (xs.map Prod.fst)) := by
  have hfind := findArec_comes h.firm.wellNamed hname
  rw [hb.arecOf] at hfind
  cases b with
  | none =>
    have hnil : xs = [] := by
      refine eq_nil_iff_forall_not_mem.mpr ?_
      intro x hx
      obtain ⟨hsome, hnone⟩ := hroom x hx
      rw [hnone] at hsome
      cases hsome
    refine ⟨q, [], comes_bind_some hfind (comes_const _), rfl, nofun, ?_⟩
    rw [hnil]
    simp [readings]
  | some a =>
    obtain ⟨-, hstate, hip⟩ := hb.blank a rfl
    have hslots := h.sinsts_perm (fun x hx => (hroom x hx).2)
    let q₀ := q.setArec a { q.arecs a with state := .resolved }
    have hrec₀ : q₀.arecs a = { q.arecs a with state := .resolved } := setArec_self ..
    by_cases hzero : getUint32 m.data r.rdata = 0
    · have hskip : alertIp q₀ a (getUint32 m.data r.rdata) = some q₀ := if_pos (by rw [hrec₀, hzero]; exact hip)
      obtain ⟨q', hq', hlog⟩ := updateArecRx_of_alertIp httl hskip
      refine ⟨q', [], comes_bind_some hfind (hq' ▸ comes_const _), hlog, nofun, ?_⟩
      rw [readings, if_pos hzero]
      exact .nil
    · let q₁ := q₀.setArec a { q₀.arecs a with ipaddr := getUint32 m.data r.rdata }
      have hrec₁ : q₁.arecs a = { q.arecs a with state := .resolved, ipaddr := getUint32 m.data r.rdata } := by
        rw [show q₁.arecs a = _ from setArec_self .., hrec₀]
      have hreg₀ : q₀.reg = q.reg := reg_setArec rfl rfl
      have hreg₁ : q₁.reg = q₀.reg := reg_setArec rfl rfl
      obtain ⟨q₂, hq₂⟩ := runAll_arec_returns (q := q₁) (a := a) (by rw [hreg₁, hreg₀]; exact h.firm.linked)
      have hlist₀ : (q₀.arecs a).sinsts = (q.arecs a).sinsts := by rw [hrec₀]
      have hlist₁ : (q₁.arecs a).sinsts = (q.arecs a).sinsts := by rw [hrec₁]
      rw [hlist₁] at hq₂
      have hrun : alertIp q₀ a (getUint32 m.data r.rdata) = some q₂ := by
        rw [alertIp_eq, if_neg (by rw [hrec₀]; exact fun heq => hzero (heq.symm.trans hip)), hlist₀]
        exact hq₂
      obtain ⟨q', hq', hlog⟩ := updateArecRx_of_alertIp httl hrun
      have hentry : ∀ t ∈ (q.arecs a).sinsts, ∃ x ∈ xs, x.2 = t := fun t ht => List.mem_map.mp (hslots.mem_iff.mp ht)
      obtain ⟨new, hnew, hall, hadverts⟩ := runAll_discovers hq₂ (h.firm.linked.referrers.nodup a) (by rw [hrec₁]) (by
        intro t ht
        obtain ⟨x, hx, rfl⟩ := hentry t ht
        have hw := h.entry x hx
        have haddr : (q.sinsts x.2).ipaddr = 0 := congrArg Advert.ipaddr hw.advert
        refine ⟨hw.state, hw.hasSrv.trans (hroom x hx).1, ?_⟩
        rw [hrec₁]
        exact fun heq => hzero (heq.symm.trans haddr))
      refine ⟨q', new, comes_bind_some hfind (hq' ▸ comes_const _), hlog.trans hnew, hall, ?_⟩
      rw [readings, if_neg hzero]
      have hperm : (new.map Report.advert).Perm (new.reverse.map Report.advert) := ((reverse_perm new).map _).symm
      rw [hadverts, hrec₁] at hperm
      refine hperm.trans ((hslots.map _).trans ?_)
      rw [List.map_map, List.map_map]
      refine List.Perm.of_eq (map_congr_left ?_)
      intro x hx
      exact congrArg (fun e : Advert => { e with ipaddr := getUint32 m.data r.rdata }) (h.entry x hx).advert

end address

end Mdns
