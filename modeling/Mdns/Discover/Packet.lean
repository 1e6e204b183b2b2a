import Mdns.Respond.Validate

/-!
# The announcement of a launched responder

What `responder_launch` accepts, and the records of the announcement that the parser reads. A label
may be empty, which ends the name before it, and the parser stops after 32 answers.
-/
namespace Mdns
open Lib List Option

section launch
variable {fuel ipaddr : Nat} {domain hostname : CString} {fqdn : Mem} {tx rx : Message} {r : Responder}
  {before : UInt8} {keyvals : Option CString} {s s' : Service} {services : List Wanted}

/-- A service as the user passes it: the byte before the key/value pairs in memory, and the pairs. -/
abbrev Wanted := Service × UInt8 × Option CString

/-- The key/value pairs as `validate_service` leaves them. -/
def Converted (before : UInt8) (s : Service) : Option CString → Prop
  | none => s.keyvals = none
  | some text => Convertible colon before (pairs text) ∧ (text.1.length ≤ 254 ∨ text.1.length = 65535) ∧
      s.keyvals = some (encodeTxt (pairs text)) ∧ s.kvlen = (text.1.length + 1) % 65536

/-- The service that the responder keeps of the one that it was given. -/
structure Admitted (domain : CString) (x : Wanted) (s : Service) : Prop where
  servname : s.servname = x.1.servname
  servtype : s.servtype = x.1.servtype
  proto : s.proto = x.1.proto
  port : s.port = x.1.port
  label : s.servname.1.length ≤ 63
  type : s.servtype.1.length ≤ 63
  size : s.servname.1.length + s.servtype.1.length + domain.1.length ≤ 244
  keyvals : Converted x.2.1 s x.2.2
  fqsn : At s.fqsn 0 (encodeName (s.servname.1 :: s.suffix domain))
  ptrname : s.ptrname = s.servname.1.length + 1

theorem validateService_none (h : validateService domain before keyvals s = .ok s') :
    validateService domain before none s = .ok { s with keyvals := none } ∧
      s.servname.1.length + s.servtype.1.length + domain.1.length ≤ 244 := by
  unfold validateService at h ⊢
  split at h
  · cases h
  · next hlabels =>
    split at h
    · cases h
    · next hlen =>
      rw [if_neg hlabels, if_neg hlen]
      unfold maxNameLen at hlen
      exact ⟨rfl, by omega⟩

theorem validateService_converted (h : validateService domain before keyvals s = .ok s') :
    Converted before s' keyvals := by
  obtain ⟨hnone, -⟩ := validateService_none h
  cases keyvals with
  | none =>
    cases hnone.symm.trans h
    exact rfl
  | some text =>
    rw [validateService_pairs hnone] at h
    split at h
    · next hconv =>
      cases h
      exact ⟨hconv.1, hconv.2, rfl, rfl⟩
    · cases h

theorem launchServices_admitted {ss : List Service} (h : launchServices domain services = .ok ss) :
    Forall₂ (Admitted domain) services ss := by
  induction services generalizing ss with
  | nil =>
    cases h
    exact .nil
  | cons x services ih =>
    obtain ⟨s, before, keyvals⟩ := x
    obtain ⟨s', hs', h⟩ := bind_eq_ok.mp h
    obtain ⟨rest, hrest, h⟩ := bind_eq_ok.mp h
    cases h
    obtain ⟨hlabel, htype, heq⟩ := validateService_eq_ok hs'
    have hconv := validateService_converted hs'
    have hsize := (validateService_none hs').2
    refine .cons ?_ (ih hrest)
    have hname : s'.servname = s.servname := by rw [heq]
    have htype' : s'.servtype = s.servtype := by rw [heq]
    refine ⟨hname, htype', by rw [heq]; rfl, by rw [heq]; rfl, ?_, ?_, ?_, ?_, at_reset _, rfl⟩
    · show s'.servname.1.length ≤ 63
      rw [hname]
      exact hlabel
    · show s'.servtype.1.length ≤ 63
      rw [htype']
      exact htype
    · show s'.servname.1.length + s'.servtype.1.length + _ ≤ 244
      rw [hname, htype']
      exact hsize
    · cases keyvals with
      | none => exact hconv
      | some text => exact hconv

structure Holding (ipaddr : Nat) (domain hostname : CString) (services : List Wanted) (r : Responder) : Prop where
  domname : r.domname = domain
  myIpaddr : r.myIpaddr = ipaddr
  hostShort : hostname.1.length ≤ 63
  domainShort : domain.1.length ≤ 63
  fqdn : At r.fqdn 0 (encodeName [hostname.1, domain.1])
  arpa : r.inAddrArpa = ipaddrToInaddrarpa ipaddr
  admitted : Forall₂ (Admitted domain) services r.services

theorem responderLaunch_holding (h : responderLaunch fuel ipaddr domain hostname services fqdn tx rx = some (.ok r)) :
    Holding ipaddr domain hostname services r := by
  obtain ⟨hhost, hdomain, ss, _, _, hss, -, -, rfl⟩ := responderLaunch_eq h
  exact ⟨rfl, rfl, (of_decide_eq_true hhost).1, (of_decide_eq_true hdomain).1, at_reset _, rfl,
    launchServices_admitted hss⟩

end launch

section names
variable {buf : Mem} {ls : Labels} {domain : CString} {x : Wanted} {s : Service}

/-- The labels that a name has on the wire, where an empty one is its end. -/
def wireLabels (ls : Labels) : Labels := ls.takeWhile (· ≠ [])

theorem wireLabels_nil_cons (ls : Labels) : wireLabels ([] :: ls) = [] := rfl

theorem wireLabels_cons {l : List UInt8} (h : l ≠ []) (ls : Labels) : wireLabels (l :: ls) = l :: wireLabels ls :=
  takeWhile_cons_of_pos (decide_eq_true h)

theorem encodeName_wireLabels (ls : Labels) : ∃ rest, encodeName ls = encodeName (wireLabels ls) ++ rest := by
  induction ls with
  | nil => exact ⟨[], rfl⟩
  | cons l ls ih =>
    by_cases hl : l = []
    · subst hl
      exact ⟨encodeName ls, encodeName_cons [] ls⟩
    · obtain ⟨rest, hrest⟩ := ih
      refine ⟨rest, ?_⟩
      rw [wireLabels_cons hl, encodeName_cons, encodeName_cons, hrest, append_assoc]

theorem nameOf_wireLabels (h : At buf 0 (encodeName ls)) (hls : ∀ l ∈ ls, l.length < 64)
    (hfits : (encodeName ls).length ≤ maxNameLen) : NameOf buf (wireLabels ls) := by
  obtain ⟨rest, hrest⟩ := encodeName_wireLabels ls
  rw [hrest] at h hfits
  refine ⟨h.take, ?_, ?_⟩
  · intro l hl
    have hne := List.all_eq_true.mp (all_takeWhile ..) l hl
    exact ⟨length_pos_iff.mpr (of_decide_eq_true hne), hls l (( takeWhile_prefix _).subset hl)⟩
  · rw [length_append] at hfits
    omega

def Service.kind (domain : CString) (s : Service) : Labels := wireLabels (s.suffix domain)

def Service.name (domain : CString) (s : Service) : Labels := s.servname.1 :: s.kind domain

theorem Service.kind_eq (domain : CString) (s : Service) :
    s.kind domain = (underscore :: s.servtype.1) :: protoLabel s.proto :: wireLabels [domain.1] := by
  have hproto : protoLabel s.proto ≠ [] := by cases s.proto <;> decide
  rw [Service.kind, Service.suffix, wireLabels_cons (cons_ne_nil _ _), wireLabels_cons hproto]

theorem Service.suffix_lt (hdomain : domain.1.length ≤ 63) (htype : s.servtype.1.length ≤ 62) :
    ∀ l ∈ s.suffix domain, l.length < 64 := by
  intro l hl
  rcases mem_suffix.mp hl with rfl | rfl | rfl
  · rw [length_cons]
    omega
  · rw [length_protoLabel]
    decide
  · omega

theorem Admitted.nameOf_fqsn (h : Admitted domain x s) (hdomain : domain.1.length ≤ 63)
    (htype : s.servtype.1.length ≤ 62) :
    NameOf s.fqsn (wireLabels (s.servname.1 :: s.suffix domain)) := by
  have hlabel := h.label
  have hsize := h.size
  refine nameOf_wireLabels h.fqsn (forall_mem_cons.mpr ⟨by omega, Service.suffix_lt hdomain htype⟩) ?_
  rw [length_serviceName, maxNameLen]
  omega

theorem Admitted.at_ptr (h : Admitted domain x s) : At s.ptr 0 (encodeName (s.suffix domain)) := by
  have hwritten := h.fqsn
  rw [encodeName_cons] at hwritten
  obtain ⟨front, back, heq, hfront⟩ := hwritten
  obtain rfl := eq_nil_of_length_eq_zero hfront
  refine ⟨[], back, ?_, rfl⟩
  rw [Service.ptr, heq, h.ptrname, nil_append, nil_append, append_assoc]
  exact drop_left' rfl

theorem Admitted.nameOf_ptr (h : Admitted domain x s) (hdomain : domain.1.length ≤ 63)
    (htype : s.servtype.1.length ≤ 62) :
    NameOf s.ptr (s.kind domain) := by
  have hsize := h.size
  have hlen := length_serviceName domain s s.servname.1
  rw [length_encodeName_cons] at hlen
  refine nameOf_wireLabels h.at_ptr (Service.suffix_lt hdomain htype) ?_
  rw [maxNameLen]
  omega

end names

section wire
variable {ipaddr : Nat} {domain hostname : CString} {services : List Wanted} {r : Responder}

/-- The names of a responder on the wire are those of its host and its services. -/
structure NamedResponder.Lettered (R : NamedResponder) (hostname domain : CString) : Prop where
  fqdn : R.fqdn.labels = wireLabels [hostname.1, domain.1]
  ptr : ∀ s ∈ R.services, s.ptr.labels = s.service.kind domain
  fqsn : ∀ s ∈ R.services, s.fqsn.labels = wireLabels (s.service.servname.1 :: s.service.suffix domain)

def NameOf.wire {mem : Mem} {ls : Labels} (h : NameOf mem ls) : WireName := ⟨mem, ls, h.written, h.sizes, h.fits⟩

theorem Holding.named (h : Holding ipaddr domain hostname services r)
    (htypes : ∀ s ∈ r.services, s.servtype.1.length ≤ 62) :
    ∃ R : NamedResponder, R.responder = r ∧ R.Lettered hostname domain := by
  have hall : ∀ {ss : List Service} {xs : List Wanted}, Forall₂ (Admitted domain) xs ss →
      (∀ s ∈ ss, s.servtype.1.length ≤ 62) → ∃ named : List NamedService, named.map NamedService.service = ss ∧
        (∀ s ∈ named, s.ptr.labels = s.service.kind domain) ∧
        ∀ s ∈ named, s.fqsn.labels = wireLabels (s.service.servname.1 :: s.service.suffix domain) := by
    intro ss xs hadmitted
    induction hadmitted with
    | nil => exact fun _ => ⟨[], rfl, nofun, nofun⟩
    | @cons x s xs ss hs _ ih =>
      intro htypes
      obtain ⟨htype, htypes⟩ := forall_mem_cons.mp htypes
      obtain ⟨named, hmap, hptr, hfqsn⟩ := ih htypes
      refine ⟨⟨s, (hs.nameOf_fqsn h.domainShort htype).wire, (hs.nameOf_ptr h.domainShort htype).wire,
        rfl, rfl⟩ :: named,
        congrArg (s :: ·) hmap, ?_, ?_⟩
      · exact forall_mem_cons.mpr ⟨rfl, hptr⟩
      · exact forall_mem_cons.mpr ⟨rfl, hfqsn⟩
  have hhost := h.hostShort
  have hdomain := h.domainShort
  have hname : NameOf r.fqdn (wireLabels [hostname.1, domain.1]) := by
    refine nameOf_wireLabels h.fqdn ?_ ?_
    · intro l hl
      simp only [mem_cons, not_mem_nil, or_false] at hl
      rcases hl with rfl | rfl <;> omega
    · rw [length_encodeName_cons, length_encodeName_cons, length_encodeName_nil, maxNameLen]
      omega
  have harpa : NameOf r.inAddrArpa (arpaLabels ipaddr) := by
    rw [h.arpa]
    exact nameOf_arpa ipaddr
  obtain ⟨named, hmap, hptr, hfqsn⟩ := hall h.admitted htypes
  exact ⟨⟨r, hname.wire, harpa.wire, named, rfl, rfl, hmap⟩, rfl, rfl, hptr, hfqsn⟩

end wire

section reading
variable {p : Mem} {c : Nat} {m packet : Message} {R : NamedResponder}
  {es : List (Entry WireName)} {s : NamedService} {rs : List Resource} {txts : List NamedService}

structure RecordOf (p : Mem) (e : Entry WireName) (r : Resource) : Prop where
  written : At p r.name (encodeName e.owner.labels)
  typeBytes : At p (r.name + (encodeName e.owner.labels).length) (setUint16 e.type)
  type : r.type = e.type
  ttl : r.ttl = e.ttl
  rdlength : r.rdlength = e.data.bytes.length
  rdata : At p r.rdata e.data.bytes

theorem RecordOf.name {e : Entry WireName} {r : Resource} (h : RecordOf p e r) :
    Expands (.packet p) r.name e.owner.labels :=
  expands_encodeName e.owner.sizes h.written

def Follows (r r' : Resource) : Prop := r'.name = r.rdata + r.rdlength

def entriesAt (es : List (Entry WireName)) (c : Nat) : List Resource :=
  (placed Entry.bytes (es.map Entry.proposed) c).map (fun x => x.1.at x.2)

theorem entriesAt_cons (e : Entry WireName) (es : List (Entry WireName)) (c : Nat) :
    entriesAt (e :: es) c = e.proposed.at c :: entriesAt es (c + e.proposed.bytes.length) := rfl

theorem forall₂_entriesAt (h : At p c ((es.map Entry.proposed).flatMap Entry.bytes)) :
    Forall₂ (RecordOf p) es (entriesAt es c) := by
  induction es generalizing c with
  | nil => exact .nil
  | cons e es ih =>
    rw [map_cons, flatMap_cons] at h
    have hbytes := h.take
    refine .cons ⟨?_, ?_, rfl, rfl, rfl, Entry.data_at hbytes⟩ (ih h.drop)
    · rw [Entry.bytes] at hbytes
      exact hbytes.take.take.take
    · rw [Entry.bytes, fixedBytes] at hbytes
      exact hbytes.take.take.drop.take.take

theorem isChain_entriesAt (es : List (Entry WireName)) (c : Nat) : (entriesAt es c).IsChain Follows := by
  induction es generalizing c with
  | nil => exact .nil
  | cons e es ih =>
    cases es with
    | nil => exact .singleton _
    | cons e' es =>
      rw [entriesAt_cons, entriesAt_cons]
      refine .cons_cons ?_ (ih _)
      show c + e.proposed.bytes.length = c + e.proposed.owner.bytes.length + 10 + e.proposed.data.bytes.length
      rw [Entry.length_bytes]
      omega

structure Message.Records (m : Message) (es : List (Entry WireName)) (rs : List Resource) : Prop where
  response : m.qr = true
  records : Forall₂ (RecordOf m.data) es rs
  chain : rs.IsChain Follows
  ptrs : m.ptrs = (rs.filter (·.type = tPtr)).reverse
  srvs : m.srvs = (rs.filter (·.type = tSrv)).reverse
  txts : m.txts = (rs.filter (·.type = tTxt)).reverse
  as : m.as = (rs.filter (·.type = tA)).reverse

theorem NamedResponder.announcement_holds (ht : R.responder.Typed)
    (h : prepareAnnouncement R.responder m 255 = (packet, 0)) :
    packet.Holds (R.announcement 255).header (R.announcement 255).body ∧
      headerSize + (R.announcement 255).body.length ≤ dataMax := by
  refine Plan.holds (NamedResponder.announcement_sound ht (show 255 < uint32Max by decide)).hasTtls (m := m) ?_
  unfold prepareAnnouncement at h
  rw [announcementAdds_eq] at h
  show addAll (R.announcement 255).adds (mdnsResponseInit m) = _
  cases hadd : addAll (R.announcement 255).adds (mdnsResponseInit m) with
  | mk m' ok =>
    rw [hadd] at h
    cases ok <;> cases h
    rfl

theorem NamedResponder.announcement_parsed (ht : R.responder.Typed)
    (h : prepareAnnouncement R.responder m 255 = (packet, 0)) :
    ∃ found rs, Comes (fun fuel => mdnsParseMessage fuel packet.data packet.cur) (.ok found) ∧
      found.Records ((R.records 255).take maxAnswers) rs := by
  have hsound := NamedResponder.announcement_sound ht (show 255 < uint32Max by decide)
  obtain ⟨hm, hroom⟩ := NamedResponder.announcement_holds ht h
  have hparse := (hsound.parse hm (by rw [hm.cur]; exact hroom)).1
  have hcut : (R.announcement 255).cut.answers = ((R.records 255).take maxAnswers).map Entry.proposed := map_take.symm
  have hanswered : (R.announcement 255).cut.answeredAt = entriesAt ((R.records 255).take maxAnswers) headerSize := by
    unfold Plan.answeredAt entriesAt
    rw [hcut]
    rfl
  have hproposed : (R.announcement 255).cut.proposedAt = [] := rfl
  have hsorted : ∀ t : Nat, (((R.announcement 255).cut.answeredAt ++ (R.announcement 255).cut.proposedAt).filter
      (·.type = t)).reverse ++ [] =
        ((entriesAt ((R.records 255).take maxAnswers) headerSize).filter (·.type = t)).reverse := by
    intro t
    rw [hproposed, hanswered, append_nil, append_nil]
  refine ⟨_, entriesAt ((R.records 255).take maxAnswers) headerSize, hparse, ?_, ?_,
    isChain_entriesAt _ _, hsorted tPtr,
    hsorted tSrv, hsorted tTxt, hsorted tA⟩
  · have hbyte : byte (swapFlags packet.data) 3 = 132 := hm.flagByte (hsound.cut_heads hroom)
    show decide (128 ≤ byte (swapFlags packet.data) 3) = true
    rw [hbyte]
    decide
  · obtain ⟨extra, hbody⟩ := hsound.body_cut
    have hat := hm.swapped.2
    rw [hbody] at hat
    have hall : (R.announcement 255).cut.body =
      (((R.records 255).take maxAnswers).map Entry.proposed).flatMap Entry.bytes := by
      rw [← hcut]
      exact append_nil _
    rw [hall] at hat
    exact forall₂_entriesAt hat.take

def NamedService.hasTxt (s : NamedService) : Bool := s.service.keyvals.isSome

/-- The services of which the PTR, the SRV and the TXT record are among the first `k` records. Only the
last of them can be missing some. -/
structure Reached (fqdn : WireName) (services : List NamedService) (k : Nat)
    (ptrs srvs txts : List NamedService) : Prop where
  ptr : ((services.flatMap (·.announced fqdn 255)).take k).filter (·.type = tPtr) = ptrs.map (·.pointer 255)
  srv : ((services.flatMap (·.announced fqdn 255)).take k).filter (·.type = tSrv) = srvs.map (·.srv fqdn 255)
  txt : ((services.flatMap (·.announced fqdn 255)).take k).filter (·.type = tTxt) = txts.flatMap (·.txt 255)
  a : ((services.flatMap (·.announced fqdn 255)).take k).filter (·.type = tA) = []
  served : ptrs <+: srvs
  known : srvs <+: services
  texts : txts.Sublist (services.filter NamedService.hasTxt)
  told : txts.Sublist ptrs
  whole : (services.flatMap (·.announced fqdn 255)).length ≤ k →
    ptrs = services ∧ srvs = services ∧ txts = services.filter NamedService.hasTxt
  cut : k < (services.flatMap (·.announced fqdn 255)).length → ptrs ≠ services ∨
    ∃ front last, services = front ++ [last] ∧ last.hasTxt = true ∧ txts.Sublist front

theorem NamedService.txt_of_hasTxt (h : s.hasTxt = true) : ∃ e, s.txt 255 = [e] ∧ e.type = tTxt := by
  obtain ⟨keyvals, hk⟩ := isSome_iff_exists.mp h
  unfold NamedService.txt
  rw [hk]
  exact ⟨_, rfl, rfl⟩

theorem NamedService.txt_of_not_hasTxt (h : s.hasTxt = false) : s.txt 255 = [] := by
  unfold NamedService.txt
  rw [isSome_eq_false_iff.mp h |> isNone_iff_eq_none.mp]

theorem NamedService.length_announced (s : NamedService) (fqdn : WireName) :
    (s.announced fqdn 255).length = if s.hasTxt then 3 else 2 := by
  cases hs : s.hasTxt with
  | true =>
    obtain ⟨e, he, -⟩ := txt_of_hasTxt hs
    rw [NamedService.announced, he]
    rfl
  | false =>
    rw [NamedService.announced, txt_of_not_hasTxt hs]
    rfl

theorem NamedService.announced_types (s : NamedService) (fqdn : WireName) :
    (s.announced fqdn 255).filter (·.type = tPtr) = [s.pointer 255] ∧
      (s.announced fqdn 255).filter (·.type = tSrv) = [s.srv fqdn 255] ∧
      (s.announced fqdn 255).filter (·.type = tTxt) = s.txt 255 ∧ (s.announced fqdn 255).filter (·.type = tA) = [] := by
  have hsrv : (s.srv fqdn 255).type = tSrv := rfl
  have hptr : (s.pointer 255).type = tPtr := rfl
  cases htxt : s.hasTxt with
  | false =>
    rw [NamedService.announced, txt_of_not_hasTxt htxt]
    simp [List.filter, hsrv, hptr, tPtr, tSrv, tTxt, tA]
  | true =>
    obtain ⟨e, he, htype⟩ := txt_of_hasTxt htxt
    rw [NamedService.announced, he]
    simp [List.filter, hsrv, hptr, htype, tPtr, tSrv, tTxt, tA]

theorem Reached.cons {fqdn : WireName} {services ptrs srvs txts : List NamedService} {k : Nat} (s : NamedService)
    (h : Reached fqdn services k ptrs srvs txts) : Reached fqdn (s :: services) ((s.announced fqdn 255).length + k)
      (s :: ptrs) (s :: srvs) (if s.hasTxt then s :: txts else txts) := by
  obtain ⟨hptr, hsrv, htxt, ha⟩ := s.announced_types fqdn
  have htake : ((s :: services).flatMap (·.announced fqdn 255)).take ((s.announced fqdn 255).length + k) =
      s.announced fqdn 255 ++ (services.flatMap (·.announced fqdn 255)).take k := by
    rw [flatMap_cons, take_length_add_append]
  have htexts : (if s.hasTxt then s :: txts else txts).flatMap (·.txt 255) = s.txt 255 ++ txts.flatMap (·.txt 255) := by
    cases hs : s.hasTxt with
    | true => rfl
    | false => rw [NamedService.txt_of_not_hasTxt hs]; rfl
  have hlength : ((s :: services).flatMap (·.announced fqdn 255)).length =
      (s.announced fqdn 255).length + (services.flatMap (·.announced fqdn 255)).length := by
    rw [flatMap_cons, length_append]
  refine ⟨?_, ?_, ?_, ?_, ?_, ?_, ?_, ?_, ?_, ?_⟩
  · rw [htake, filter_append, hptr, h.ptr]
    rfl
  · rw [htake, filter_append, hsrv, h.srv]
    rfl
  · rw [htake, filter_append, htxt, h.txt, htexts]
  · rw [htake, filter_append, ha, h.a]
    rfl
  · exact (prefix_cons_inj s).mpr h.served
  · exact (prefix_cons_inj s).mpr h.known
  · cases hs : s.hasTxt with
    | true =>
      rw [filter_cons_of_pos hs]
      exact h.texts.cons_cons s
    | false =>
      rw [filter_cons_of_neg (by simp [hs])]
      exact h.texts
  · cases s.hasTxt with
    | true => exact h.told.cons_cons s
    | false => exact h.told.cons s
  · intro hall
    obtain ⟨rfl, rfl, rfl⟩ := h.whole (by omega)
    refine ⟨rfl, rfl, ?_⟩
    cases hs : s.hasTxt with
    | true => rw [filter_cons_of_pos hs]; rfl
    | false => rw [filter_cons_of_neg (by simp [hs])]; rfl
  · intro hcut
    rcases h.cut (by omega) with hne | ⟨front, last, rfl, hlast, hsub⟩
    · exact .inl (fun heq => hne (List.cons.inj heq).2)
    · refine .inr ⟨s :: front, last, rfl, hlast, ?_⟩
      cases s.hasTxt with
      | true => exact hsub.cons_cons s
      | false => exact hsub.cons s

theorem exists_reached_first (fqdn : WireName) (s : NamedService) (services : List NamedService) {k : Nat}
    (hk : k < (s.announced fqdn 255).length) : ∃ ptrs srvs txts, Reached fqdn (s :: services) k ptrs srvs txts := by
  have hlength : ((s :: services).flatMap (·.announced fqdn 255)).length =
      (s.announced fqdn 255).length + (services.flatMap (·.announced fqdn 255)).length := by
    rw [flatMap_cons, length_append]
  have htake : ((s :: services).flatMap (·.announced fqdn 255)).take k = (s.announced fqdn 255).take k := by
    rw [flatMap_cons, take_append_of_le_length (by omega)]
  have hwhole : ¬ ((s :: services).flatMap (·.announced fqdn 255)).length ≤ k := by omega
  have hsrv : (s.srv fqdn 255).type = tSrv := rfl
  have hptr : (s.pointer 255).type = tPtr := rfl
  have hcases : k = 0 ∨ k = 1 ∨ (k = 2 ∧ s.hasTxt = true) := by
    rw [s.length_announced] at hk
    split at hk
    · next hs =>
      simp only [hs, and_true]
      omega
    · omega
  rcases hcases with rfl | rfl | ⟨rfl, hs⟩
  · refine ⟨[], [], [], ?_⟩
    exact ⟨rfl, rfl, rfl, rfl, nil_prefix, nil_prefix, nil_sublist _, nil_sublist _,
      fun hle => absurd hle hwhole, fun _ => .inl (cons_ne_nil s services).symm⟩
  · refine ⟨[], [s], [], ?_⟩
    refine ⟨?_, ?_, ?_, ?_, nil_prefix, (prefix_cons_inj s).mpr nil_prefix, nil_sublist _,
      nil_sublist _, fun hle => absurd hle hwhole, fun _ => .inl (cons_ne_nil s services).symm⟩
    all_goals
      rw [htake]
      simp [NamedService.announced, List.filter, hsrv, tPtr, tSrv, tTxt, tA]
  · refine ⟨[s], [s], [], ?_⟩
    refine ⟨?_, ?_, ?_, ?_, prefix_rfl, (prefix_cons_inj s).mpr nil_prefix, nil_sublist _,
      nil_sublist _, fun hle => absurd hle hwhole, fun _ => ?_⟩
    · rw [htake]
      simp [NamedService.announced, List.filter, hsrv, hptr, tPtr, tSrv]
    · rw [htake]
      simp [NamedService.announced, List.filter, hsrv, hptr, tPtr, tSrv]
    · rw [htake]
      simp [NamedService.announced, List.filter, hsrv, hptr, tPtr, tSrv, tTxt]
    · rw [htake]
      simp [NamedService.announced, List.filter, hsrv, hptr, tPtr, tSrv, tA]
    · by_cases hnil : services = []
      · subst hnil
        exact .inr ⟨[], s, rfl, hs, .slnil⟩
      · exact .inl (fun heq => hnil (List.cons.inj heq).2.symm)

theorem exists_reached (fqdn : WireName) (services : List NamedService) (k : Nat) :
    ∃ ptrs srvs txts, Reached fqdn services k ptrs srvs txts := by
  induction services generalizing k with
  | nil =>
    refine ⟨[], [], [], by simp, by simp, by simp, by simp, prefix_rfl, prefix_rfl, .slnil,
      .slnil, fun _ => ⟨rfl, rfl, rfl⟩, ?_⟩
    intro hcut
    cases hcut
  | cons s services ih =>
    by_cases hk : k < (s.announced fqdn 255).length
    · exact exists_reached_first fqdn s services hk
    · obtain ⟨ptrs, srvs, txts, h⟩ := ih (k - (s.announced fqdn 255).length)
      have hcons := h.cons s
      rw [Nat.add_sub_cancel' (Nat.not_lt.mp hk)] at hcons
      exact ⟨_, _, _, hcons⟩

/-- The announcement as the querier finds it: the PTR records of these services before that of the address, and the
SRV and TXT records of these, all in reverse order. -/
structure Message.Conveys (m : Message) (R : NamedResponder) (ptrs srvs txts : List NamedService) : Prop where
  response : m.qr = true
  ptr : ∃ rs last, m.ptrs = rs ++ [last] ∧ Forall₂ (fun s r => RecordOf m.data (s.pointer 255) r) ptrs.reverse rs ∧
    RecordOf m.data (R.reverse 255) last ∧
    ∀ s ∈ R.services.head?, ∃ r, RecordOf m.data (s.srv R.fqdn 255) r ∧ Follows last r
  srv : Forall₂ (fun s r => RecordOf m.data (s.srv R.fqdn 255) r) srvs.reverse m.srvs
  txt : Forall₂ (fun s r => ∃ e, s.txt 255 = [e] ∧ RecordOf m.data e r) txts.reverse m.txts
  a : ∃ r, m.as = [r] ∧ RecordOf m.data (R.address 255) r

theorem Message.Records.ofType (h : m.Records es rs) (t : Nat) :
    Forall₂ (RecordOf m.data) (es.filter (·.type = t)) (rs.filter (·.type = t)) := by
  refine rel_filter ?_ h.records
  intro e r hr
  show decide (e.type = t) = true ↔ decide (r.type = t) = true
  rw [hr.type]

theorem forall₂_flatMap_txt (htxt : ∀ s ∈ txts, s.hasTxt = true)
    (h : Forall₂ (RecordOf p) (txts.flatMap (·.txt 255)) rs) :
    Forall₂ (fun s r => ∃ e, s.txt 255 = [e] ∧ RecordOf p e r) txts rs := by
  induction txts generalizing rs with
  | nil =>
    cases h
    exact .nil
  | cons s txts ih =>
    obtain ⟨hs, htxt⟩ := forall_mem_cons.mp htxt
    obtain ⟨e, he, -⟩ := NamedService.txt_of_hasTxt hs
    rw [flatMap_cons, he] at h
    cases h with
    | cons hr h => exact .cons ⟨e, he, hr⟩ (ih htxt h)

theorem Message.Records.conveys {ptrs srvs : List NamedService}
    (h : m.Records ((R.records 255).take maxAnswers) rs) (hr : Reached R.fqdn R.services 30 ptrs srvs txts) :
    m.Conveys R ptrs srvs txts := by
  have htake : (R.records 255).take maxAnswers = R.address 255 :: R.reverse 255 ::
      (R.services.flatMap (·.announced R.fqdn 255)).take 30 := rfl
  rw [htake] at h
  have hptrs : Forall₂ (RecordOf m.data) (R.reverse 255 :: ptrs.map (·.pointer 255)) (rs.filter (·.type = tPtr)) := by
    rw [← hr.ptr]
    exact h.ofType tPtr
  have hsrvs : Forall₂ (RecordOf m.data) (srvs.map (·.srv R.fqdn 255)) (rs.filter (·.type = tSrv)) := by
    rw [← hr.srv]
    exact h.ofType tSrv
  have htxts : Forall₂ (RecordOf m.data) (txts.flatMap (·.txt 255)) (rs.filter (·.type = tTxt)) := by
    rw [← hr.txt]
    exact h.ofType tTxt
  have has : Forall₂ (RecordOf m.data) [R.address 255] (rs.filter (·.type = tA)) := by
    rw [← hr.a]
    exact h.ofType tA
  refine ⟨h.response, ?_, ?_, ?_, ?_⟩
  · have hsorted := h.ptrs
    have hchain := h.chain
    cases h.records with
    | @cons _ first _ rs' hfirst hrest =>
      cases hrest with
      | @cons _ last _ rs' hlast hrest =>
        have hfilter : (first :: last :: rs').filter (·.type = tPtr) = last :: rs'.filter (·.type = tPtr) := by
          have h1 : first.type = tA := hfirst.type
          have h2 : last.type = tPtr := hlast.type
          simp [h1, h2, tA, tPtr]
        rw [hfilter] at hptrs hsorted
        refine ⟨(rs'.filter (·.type = tPtr)).reverse, last, ?_, ?_, hlast, ?_⟩
        · rw [hsorted, reverse_cons]
        · rw [forall₂_reverse_iff]
          exact forall₂_map_left_iff.mp (forall₂_cons.mp hptrs).2
        · -- the record behind it is the SRV record of the first service
          intro s hs
          obtain ⟨rest, hservices⟩ : ∃ rest, R.services = s :: rest := by
            cases hR : R.services with
            | nil =>
              rw [hR] at hs
              cases hs
            | cons s' rest =>
              rw [hR] at hs
              cases hs
              exact ⟨rest, rfl⟩
          rw [hservices] at hrest
          cases hrest with
          | @cons _ r _ _ hr hrest => exact ⟨r, hr, (isChain_cons_cons.mp (isChain_cons_cons.mp hchain).2).1⟩
  · rw [h.srvs, forall₂_reverse_iff]
    exact forall₂_map_left_iff.mp hsrvs
  · rw [h.txts, forall₂_reverse_iff]
    refine forall₂_flatMap_txt ?_ htxts
    intro s hs
    exact (mem_filter.mp (hr.texts.subset hs)).2
  · have hsorted := h.as
    generalize rs.filter (·.type = tA) = as at has hsorted
    cases has with
    | @cons _ r _ _ hr' hnil =>
      cases hnil
      exact ⟨r, hsorted, hr'⟩

end reading

end Mdns
