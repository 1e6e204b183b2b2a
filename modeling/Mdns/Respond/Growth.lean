import Mathlib.Tactic.Ring
import Mdns.Respond.Room

/-!
# Room for longer names

The name of the host is in a probe three times and once more for each service, and the name of a
service twice and once more for its TXT record. `max_probe_growth` counts the host three times and
each service twice.
-/
namespace Mdns
open Lib List Option

theorem stable_checkMaxResponse (r : Responder) (rx tx : Message) :
    Stable none (fun fuel => checkMaxResponse fuel r rx tx) := by
  unfold checkMaxResponse
  dsimp only
  split
  · exact stable_const _ _
  · next query _ =>
    intro fuel h fuel' hle
    dsimp only at h ⊢
    have hback : mdnsParseMessage fuel query.data query.cur ≠ .error .hang := by
      intro hhang
      rw [hhang] at h
      exact h rfl
    have hsame : mdnsParseMessage fuel' query.data query.cur = mdnsParseMessage fuel query.data query.cur :=
      stable_mdnsParseMessage _ _ fuel hback fuel' hle
    rw [hsame]
    cases hparse : mdnsParseMessage fuel query.data query.cur with
    | error e =>
      cases e with
      | hang => exact absurd hparse hback
      | err => rfl
    | ok m =>
      rw [hparse] at h
      exact stable_bind_option (g := fun _ x => pure (if x.2 < 1 then none else some x.1))
        (stable_prepareResponse r m tx)
        (fun _ => stable_const _ _) fuel h fuel' hle

section launch
variable {fuel ipaddr : Nat} {domain hostname : CString}
  {services : List (Service × UInt8 × Option CString)} {fqdn : Mem}
  {tx rx : Message} {r : Responder}

/-- What `responder_launch` has checked, and the responder that it leaves. -/
structure Launched (fuel : Nat) (rx : Message) (r : Responder) : Prop where
  hname : r.hname.1.length ≤ 63
  domname : r.domname.1.length ≤ 63
  fqdn : At r.fqdn 0 (encodeName [r.hname.1, r.domname.1])
  arpa : r.inAddrArpa = ipaddrToInaddrarpa r.myIpaddr
  services : ∀ s ∈ r.services, s.servname.1.length ≤ 63 ∧
    At s.fqsn 0 (encodeName (s.servname.1 :: s.suffix r.domname)) ∧
    s.ptrname = s.servname.1.length + 1
  room : ∃ r0 probe response, r0 = { r with tx := r0.tx } ∧ checkMaxResponse fuel r0 rx probe = some (some response) ∧
    (maxResponseGrowth r.services.length : Int) ≤ response.tailroom

theorem validateService_eq_ok {before : UInt8} {keyvals : Option CString} {s s' : Service}
    (h : validateService domain before keyvals s = .ok s') :
    s.servname.1.length ≤ 63 ∧ s.servtype.1.length ≤ 63 ∧ s' = { s with keyvals := s'.keyvals, kvlen := s'.kvlen } := by
  unfold validateService at h
  split at h
  · cases h
  · next hlabels =>
    simp only [Bool.or_eq_true, Bool.not_eq_true', not_or, Bool.not_eq_false] at hlabels
    have hservname : s.servname.1.length ≤ 63 := (of_decide_eq_true hlabels.1).1
    have hservtype : s.servtype.1.length ≤ 63 := (of_decide_eq_true hlabels.2).1
    refine ⟨hservname, hservtype, ?_⟩
    split at h
    · cases h
    · split at h
      · cases h
        rfl
      · split at h
        · cases h
        · split at h
          · cases h
          · cases h
            rfl

/-- What `responder_launch` leaves once its checks have passed. -/
theorem responderLaunch_eq (h : responderLaunch fuel ipaddr domain hostname services fqdn tx rx = some (.ok r)) :
    validLabel hostname = true ∧ validLabel domain = true ∧ ∃ ss probe response,
      launchServices domain services = .ok ss ∧
      checkMaxResponse fuel { r with tx } rx probe = some (some response) ∧
      (maxResponseGrowth ss.length : Int) ≤ response.tailroom ∧
      r = { hname := hostname, domname := domain, fqdn := writeAt fqdn 0 (encodeName [hostname.1, domain.1]),
            inAddrArpa := ipaddrToInaddrarpa ipaddr, myIpaddr := ipaddr, services := ss, tx :=
  response, rx := rx.data } := by
  unfold responderLaunch at h
  split at h
  · cases h
  · next hlabels =>
    simp only [Bool.or_eq_true, Bool.not_eq_true', not_or, Bool.not_eq_false] at hlabels
    split at h
    · cases h
    · next ss hss =>
      dsimp only at h
      obtain ⟨⟨probe, ret⟩, -, h⟩ := bind_eq_some_iff.mp h
      dsimp only at h
      split at h
      · cases h
      · split at h
        · cases h
        · obtain ⟨response, hresponse, h⟩ := bind_eq_some_iff.mp h
          split at h
          · cases h
          · split at h
            · cases h
            · next hgrowth =>
              cases h
              exact ⟨hlabels.1, hlabels.2, ss, probe, _, hss, hresponse, Int.not_lt.mp hgrowth, rfl⟩

end launch

section lengthened
variable {r r' : Responder}

/-- What renamings do to the sizes: every name is at most two bytes longer. -/
structure Lengthened (r r' : Responder) : Prop where
  ipaddr : r'.myIpaddr = r.myIpaddr
  domname : r'.domname = r.domname
  names : r'.WellNamed
  fqdn : nameSize r'.fqdn ≤ nameSize r.fqdn + 2
  services : Forall₂ (fun s s' => s' = { s with fqsn := s'.fqsn, ptrname := s'.ptrname } ∧
    nameSize s'.fqsn ≤ nameSize s.fqsn + 2) r.services r'.services

theorem NameOf.nameSize {mem : Mem} {ls : Labels} (h : NameOf mem ls) : nameSize mem = (encodeName ls).length :=
  nameSize_encodeName h.sizes h.written (Nat.lt_of_le_of_lt h.fits (by decide))

theorem OnChain.grows {cfg : List UInt8} {rest : Labels} {buf buf' : Mem} {k : Nat} (hc : Nameable cfg rest)
    (h : OnChain cfg rest buf 0) (h' : OnChain cfg rest buf' k) (hlen : buf.length < 65536)
    (hroom : buf'.length = buf.length) :
    Mdns.nameSize buf' ≤ Mdns.nameSize buf + 2 := by
  rw [h.nameSize hc hlen, h'.nameSize hc (by omega), hc.length_labelAfter k, hc.length_labelAfter 0]
  unfold growth
  split_ifs <;> omega

theorem Naming.lengthened {fuel : Nat} {rx : Message} (h : Naming r r') (hl : Launched fuel rx r) (hr : r.Renamable) :
    Lengthened r r' where
  ipaddr := by rw [h.config]
  domname := by rw [h.config]
  names := h.wellNamed hr hl.arpa
  fqdn := by
    obtain ⟨k, hk⟩ := h.fqdn
    exact (onChain_zero hr.name hl.fqdn).grows hr.name hk (by rw [hr.buffer]; decide) h.room
  services := by
    refine ((forall₂_and_left _ _).mpr ⟨fun _ hs => hs, h.services⟩).imp ?_
    rintro s s' ⟨hmem, k, hk⟩
    have hs := hr.services s hmem
    exact ⟨hk.config, (onChain_zero hs.name (hl.services s hmem).2.1).grows hs.name hk.fqsn
      (by rw [hs.buffer]; decide) hk.room⟩

end lengthened

section bytes
variable {r r' : Responder} {s s' : Service}

def Service.copies (s : Service) : Nat := if s.keyvals.isSome then 3 else 2

/-- What a service takes in a probe beside its name and that of the host: the fixed parts and its key/value pairs. -/
def Service.fixed (s : Service) : Nat := 20 + if s.keyvals.isSome then 10 + s.kvlen else 0

theorem NamedService.probeSize_eq (s : NamedService) (fqdn : Nat) :
    s.probeSize fqdn = fqdn + (s.service.copies * nameSize s.service.fqsn + s.service.fixed) := by
  have hsize : s.fqsn.size = nameSize s.service.fqsn := by rw [← s.fqsn_mem, s.fqsn.nameSize, WireName.size]
  unfold NamedService.probeSize NamedService.txtSize Service.copies Service.fixed
  rw [hsize]
  cases s.service.keyvals with
  | none =>
    simp only [isSome_none, Bool.false_eq_true, if_false]
    omega
  | some keyvals =>
    simp only [isSome_some, if_true]
    omega

theorem same_copies (h : s' = { s with fqsn := s'.fqsn, ptrname := s'.ptrname }) :
    s'.copies = s.copies ∧ s'.fixed = s.fixed := by
  rw [h]
  exact ⟨rfl, rfl⟩

theorem Lengthened.arpa (h : Lengthened r r') (hw : r.WellNamed) : r'.inAddrArpa = r.inAddrArpa := by
  rw [h.names.arpa, h.ipaddr, hw.arpa]

def Responder.announcedBytes (r : Responder) : Nat :=
  36 + (2 + r.services.length) * nameSize r.fqdn + nameSize r.inAddrArpa +
    (r.services.map (fun s => s.copies * nameSize s.fqsn + s.fixed + (6 + nameSize s.ptr))).sum

theorem NamedResponder.announced_bytes (n : NamedResponder) (ttl : Nat) :
    headerSize + (n.announcement ttl).body.length = n.responder.announcedBytes := by
  have hsum : ∀ ss : List NamedService, (ss.map (NamedService.announcedSize n.fqdn.size)).sum =
      ss.length * n.fqdn.size +
        ((ss.map NamedService.service).map (fun s =>
          s.copies * nameSize s.fqsn + s.fixed + (6 + nameSize s.ptr))).sum := by
    intro ss
    induction ss with
    | nil => simp
    | cons s ss ih =>
      have hprobe := s.probeSize_eq n.fqdn.size
      have hptr : s.ptr.size = nameSize s.service.ptr := by rw [← s.ptr_mem, s.ptr.nameSize, WireName.size]
      rw [map_cons, sum_cons, ih, map_cons, map_cons, sum_cons, length_cons, Nat.succ_mul]
      unfold NamedService.probeSize at hprobe
      unfold NamedService.announcedSize
      omega
  have hlen : n.services.length = n.responder.services.length := by rw [← n.services_eq, length_map]
  have hfqdn : n.fqdn.size = nameSize n.responder.fqdn := by rw [← n.fqdn_mem, n.fqdn.nameSize, WireName.size]
  have harpa : n.arpa.size = nameSize n.responder.inAddrArpa := by rw [← n.arpa_mem, n.arpa.nameSize, WireName.size]
  rw [n.announcement_length, hsum, n.services_eq, hlen, hfqdn, harpa, Responder.announcedBytes, Nat.add_mul]
  omega

theorem Lengthened.announcedBytes (h : Lengthened r r') (hw : r.WellNamed) :
    r'.announcedBytes ≤ r.announcedBytes + maxResponseGrowth r.services.length := by
  have hsum : (r'.services.map (fun s => s.copies * nameSize s.fqsn + s.fixed + (6 + nameSize s.ptr))).sum ≤
      (r.services.map (fun s => s.copies * nameSize s.fqsn + s.fixed + (6 + nameSize s.ptr))).sum +
        6 * r.services.length := by
    have hservices := h.services
    have hnames := hw.services
    have hnames' := h.names.services
    rw [h.domname] at hnames'
    generalize r.services = ss at hservices hnames
    generalize r'.services = ss' at hservices hnames'
    induction hservices with
    | nil => exact Nat.le_refl _
    | @cons s s' ss ss' hs _ ih =>
      obtain ⟨hw, hws⟩ := forall_mem_cons.mp hnames
      obtain ⟨hw', hws'⟩ := forall_mem_cons.mp hnames'
      have hrest := ih hws hws'
      obtain ⟨hcopies, hfixed⟩ := same_copies hs.1
      have hptr : nameSize s'.ptr = nameSize s.ptr := by
        rw [hw'.ptr.nameSize, hw.ptr.nameSize, hs.1]
        rfl
      have hname : s.copies * nameSize s'.fqsn ≤ s.copies * nameSize s.fqsn + 6 := by
        have hle := Nat.mul_le_mul_left s.copies hs.2
        have hthree : s.copies ≤ 3 := by
          unfold Service.copies
          split <;> decide
        rw [Nat.mul_add] at hle
        omega
      simp only [map_cons, sum_cons, length_cons, hcopies, hfixed, hptr]
      omega
  have hlen : r'.services.length = r.services.length := h.services.length_eq.symm
  have hfqdn := Nat.mul_le_mul_left (2 + r.services.length) h.fqdn
  unfold Responder.announcedBytes maxResponseGrowth
  rw [hlen, h.arpa hw]
  rw [Nat.mul_add] at hfqdn
  omega

end bytes

section fits
variable {fuel ipaddr : Nat} {domain hostname : CString}
  {services : List (Service × UInt8 × Option CString)} {fqdn : Mem}
  {tx rx : Message} {r r' : Responder}

/-- `prepare_probe` and `prepare_announcement` return 0. -/
def Responder.Fits (r : Responder) : Prop :=
  (∀ m, ∃ probe, Comes (fun fuel => prepareProbe fuel r m) (some (probe, 0))) ∧
    ∀ m ttl, ttl < uint32Max → (prepareAnnouncement r m ttl).2 = 0

theorem Launched.announcedBytes (h : Launched fuel rx r) (hw : r.WellNamed) :
    r.services.length ≤ 30 ∧ r.announcedBytes + maxResponseGrowth r.services.length ≤ dataMax := by
  obtain ⟨r0, probe, response, hr0, hcheck, hgrowth⟩ := h.room
  have hw0 : r0.WellNamed := by
    rw [hr0]
    exact ⟨hw.fqdn, hw.arpa, hw.services⟩
  have hcomes := (stable_checkMaxResponse r0 rx probe).comes (n := fuel) (by rw [hcheck]; exact some_ne_none _)
  rw [hcheck] at hcomes
  obtain ⟨hfew, hroom, hcur, hmend⟩ := checkMaxResponse_room (n := r0.wire hw0) (r0.wire_proper hw0) hcomes
  have hlen : (r0.wire hw0).services.length = r.services.length := by
    rw [Responder.wire, length_pmap, hr0]
  have hbytes := (r0.wire hw0).announced_bytes 255
  have hsame : (r0.wire hw0).responder.announcedBytes = r.announcedBytes := by
    show r0.announcedBytes = r.announcedBytes
    rw [hr0]
    rfl
  have hmax : dataMax = 1472 := rfl
  rw [NamedResponder.announcement_body, hsame] at hbytes
  rw [Message.tailroom, hmend] at hgrowth
  rw [hlen] at hfew
  exact ⟨hfew, by omega⟩

theorem Responder.Typed.lengthened (ht : r.Typed) (h : Lengthened r r') : r'.Typed := by
  refine ⟨?_, ?_⟩
  · rw [h.ipaddr]
    exact ht.ipaddr
  · intro s' hs'
    obtain ⟨i, hi⟩ := getElem?_of_mem hs'
    obtain ⟨s, hs, heq, -⟩ := forall₂_getElem? h.services hi
    rw [heq]
    exact ht.ports s (mem_of_getElem? hs)

theorem exists_ok_of_any {ε α : Type*} {x : Option (Except ε α)} {p : α → Bool} (h : x.any (·.toOption.any p) = true) :
    ∃ r, x = some (.ok r) ∧ p r = true := by
  obtain ⟨y, rfl, hy⟩ := (Option.any_eq_true _ _).mp h
  exact (exists_ok hy).imp fun r hr => ⟨congrArg some hr.1, hr.2⟩

def blankMessage : Message := { data := replicate dataMax 0, mend := dataMax - 1, cur := 0 }

def longName (c : UInt8) (k : Nat) (h : c ≠ 0) : CString :=
  ⟨replicate k c, fun h0 => h (eq_of_mem_replicate h0).symm⟩

end fits

end Mdns
