import Mdns.Parse.RoundTrip
import Mdns.Respond.Names

/-!
# The packets of a responder

The probe and the announcement of a responder whose names are well formed, as plans. A probe can
have more authorities, and an announcement more answers, than the parser reads.
-/
namespace Mdns
open Lib List

section cut
variable {plan : Plan} {m : Message}

/-- The part of a plan that the parser reads, if its questions are few and only its last section is
long. -/
def Plan.cut (plan : Plan) : Plan :=
  { plan with answers := plan.answers.take maxAnswers, authorities := plan.authorities.take maxAuthorities }

structure Plan.Sound (plan : Plan) : Prop where
  questions : plan.questions.length ≤ maxQuestions
  last : plan.answers.length ≤ maxAnswers ∨ plan.authorities = []
  asked : ∀ q ∈ plan.questions, q.Bounded
  answer : ∀ x ∈ plan.answers, x.Valid plan.Refs
  authority : ∀ x ∈ plan.authorities, x.proposed.Valid plan.Refs

theorem Plan.Sound.hasTtls (h : plan.Sound) : plan.HasTtls :=
  ⟨fun x hx => Nat.ne_of_lt (h.answer x hx).ttl, fun x hx => Nat.ne_of_lt (h.authority x hx).ttl⟩

theorem Plan.Sound.cut_valid (h : plan.Sound) : plan.cut.Valid where
  questions := h.questions
  answers := length_take_le _ _
  authorities := length_take_le _ _
  asked := h.asked
  answer := fun x hx => h.answer x (mem_of_mem_take hx)
  authority := fun x hx => h.authority x (mem_of_mem_take hx)

theorem Plan.Sound.body_cut (h : plan.Sound) : ∃ extra, plan.body = plan.cut.body ++ extra := by
  rcases h.last with hfew | hnone
  · refine ⟨((plan.authorities.drop maxAuthorities).map Entry.proposed).flatMap Entry.bytes, ?_⟩
    have hsplit : (plan.authorities.map Entry.proposed).flatMap Entry.bytes =
        ((plan.authorities.take maxAuthorities).map Entry.proposed).flatMap Entry.bytes ++
          ((plan.authorities.drop maxAuthorities).map Entry.proposed).flatMap Entry.bytes := by
      rw [← flatMap_append, ← map_append, take_append_drop]
    simp only [Plan.body, Plan.cut, take_of_length_le hfew, hsplit, append_assoc]
  · refine ⟨(plan.answers.drop maxAnswers).flatMap Entry.bytes, ?_⟩
    have hsplit : plan.answers.flatMap Entry.bytes =
        (plan.answers.take maxAnswers).flatMap Entry.bytes ++ (plan.answers.drop maxAnswers).flatMap Entry.bytes := by
      rw [← flatMap_append, take_append_drop]
    simp only [Plan.body, Plan.cut, hnone, hsplit, take_nil, map_nil, flatMap_nil, append_nil,
      append_assoc]

theorem length_le_flatMap {α : Type} {bytes : α → Mem} (hpos : ∀ x, 0 < (bytes x).length) (xs : List α) :
    xs.length ≤ (xs.flatMap bytes).length := by
  induction xs with
  | nil => exact Nat.le_refl 0
  | cons x xs ih =>
    have hx := hpos x
    rw [flatMap_cons, length_append, length_cons]
    omega

theorem Entry.length_pos (x : Entry Owner) : 0 < x.bytes.length := by
  rw [x.length_bytes]
  omega

theorem Plan.Sound.cut_heads (h : plan.Sound) (hroom : headerSize + plan.body.length ≤ dataMax) :
    plan.cut.Heads plan.header := by
  have ha := length_le_flatMap Entry.length_pos plan.answers
  have hr := length_le_flatMap Entry.length_pos (plan.authorities.map Entry.proposed)
  have hq := h.questions
  rw [length_map] at hr
  simp only [Plan.body, length_append, headerSize, dataMax] at hroom
  refine ⟨rfl, ?_, ?_, ?_⟩
  · show min (plan.questions.length % 65536) maxQuestions = plan.questions.length
    unfold maxQuestions at *
    omega
  · show min (plan.answers.length % 65536) maxAnswers = (plan.answers.take maxAnswers).length
    rw [length_take]
    unfold maxAnswers
    omega
  · show min (plan.authorities.length % 65536) maxAuthorities = (plan.authorities.take maxAuthorities).length
    rw [length_take]
    unfold maxAuthorities
    omega

theorem Plan.Sound.parse (h : plan.Sound) (hm : m.Holds plan.header plan.body) (hroom : m.cur ≤ dataMax) :
    Comes (fun fuel => mdnsParseMessage fuel m.data m.cur) (.ok (plan.cut.parsed m.data m.cur)) ∧
      Forall₂ (fun (q : Asked) q' => Expands (.packet (swapFlags m.data)) q'.qname q.name.labels ∧
        q'.qtype = q.type ∧ q'.qclass = q.cls) plan.questions plan.askedAt ∧
      Forall₂ (Recorded (swapFlags m.data) plan.Refs) plan.cut.answers plan.cut.answeredAt ∧
      Forall₂ (Recorded (swapFlags m.data) plan.Refs)
        (plan.cut.authorities.map Entry.proposed) plan.cut.proposedAt := by
  obtain ⟨extra, hbody⟩ := h.body_cut
  have hheads := h.cut_heads (hm.cur ▸ hroom)
  rw [hbody] at hm
  exact Plan.parse h.cut_valid hheads hm hroom

end cut

section plans

structure NamedService where
  service : Service
  fqsn : WireName
  ptr : WireName
  fqsn_mem : fqsn.mem = service.fqsn
  ptr_mem : ptr.mem = service.ptr

structure NamedResponder where
  responder : Responder
  fqdn : WireName
  arpa : WireName
  services : List NamedService
  fqdn_mem : fqdn.mem = responder.fqdn
  arpa_mem : arpa.mem = responder.inAddrArpa
  services_eq : services.map NamedService.service = responder.services

def NamedService.question (s : NamedService) : Asked := { name := s.fqsn, type := tAny, cls := cIn }

def NamedService.srv (s : NamedService) (fqdn : WireName) (ttl : Nat) : Entry WireName :=
  { owner := s.fqsn, type := tSrv, cls := cFlush, ttl, data := .srv 0 s.service.port fqdn }

def NamedService.pointer (s : NamedService) (ttl : Nat) : Entry WireName :=
  { owner := s.ptr, type := tPtr, cls := cFlush, ttl, data := .name s.fqsn }

def NamedService.txt (s : NamedService) (ttl : Nat) : List (Entry WireName) :=
  match s.service.keyvals with
  | none => []
  | some keyvals => [{ owner := s.fqsn, type := tTxt, cls := cFlush, ttl, data := .txt keyvals s.service.kvlen }]

def NamedService.proposed (s : NamedService) (fqdn : WireName) : List (Entry WireName) := s.srv fqdn 255 :: s.txt 255

def NamedService.announced (s : NamedService) (fqdn : WireName) (ttl : Nat) : List (Entry WireName) :=
  s.srv fqdn ttl :: s.pointer ttl :: s.txt ttl

def NamedResponder.address (n : NamedResponder) (ttl : Nat) : Entry WireName :=
  { owner := n.fqdn, type := tA, cls := cFlush, ttl, data := .uint32 n.responder.myIpaddr }

def NamedResponder.reverse (n : NamedResponder) (ttl : Nat) : Entry WireName :=
  { owner := n.arpa, type := tPtr, cls := cFlush, ttl, data := .name n.fqdn }

def NamedResponder.questions (n : NamedResponder) : List Asked :=
  { name := n.fqdn, type := tAny, cls := cIn } :: { name := n.arpa, type := tAny, cls := cIn } ::
    n.services.map NamedService.question

def NamedResponder.query (n : NamedResponder) : Plan :=
  { response := false, questions := n.questions, answers := [], authorities := [] }

def NamedResponder.probe (n : NamedResponder) : Plan :=
  { n.query with authorities := n.address 255 :: n.reverse 255 :: n.services.flatMap (fun s => s.proposed n.fqdn) }

def NamedResponder.records (n : NamedResponder) (ttl : Nat) : List (Entry WireName) :=
  n.address ttl :: n.reverse ttl :: n.services.flatMap (fun s => s.announced n.fqdn ttl)

def NamedResponder.announcement (n : NamedResponder) (ttl : Nat) : Plan :=
  { response := true, questions := [], answers := (n.records ttl).map Entry.proposed, authorities := [] }

variable {n : NamedResponder} {s : NamedService}

theorem txtAdds_authority (s : NamedService) (ttl : Nat) :
    txtAdds mdnsAddAuthority s.service ttl = (s.txt ttl).flatMap Entry.authorityAdds := by
  unfold txtAdds NamedService.txt
  cases s.service.keyvals with
  | none => rfl
  | some keyvals => rw [← s.fqsn_mem]; rfl

theorem txtAdds_answer (s : NamedService) (ttl : Nat) :
    txtAdds mdnsAddAnswer s.service ttl = ((s.txt ttl).map Entry.proposed).flatMap Entry.answerAdds := by
  unfold txtAdds NamedService.txt
  cases s.service.keyvals with
  | none => rfl
  | some keyvals => rw [← s.fqsn_mem]; rfl

theorem addAllServices_questions (n : NamedResponder) :
    responderAddAllServices n.responder .questions 0 = (n.services.map NamedService.question).map Asked.add := by
  rw [responderAddAllServices, ← n.services_eq, flatMap_map, List.map_map, map_eq_flatMap]
  congr 1
  funext s
  show [_] = [_]
  rw [← s.fqsn_mem]
  rfl

theorem addAllServices_authorities (n : NamedResponder) :
    responderAddAllServices n.responder .authorities 255 =
      (n.services.flatMap (fun s => s.proposed n.fqdn)).flatMap Entry.authorityAdds := by
  rw [responderAddAllServices, ← n.services_eq, flatMap_map, flatMap_assoc]
  congr 1
  funext s
  show _ :: _ :: txtAdds mdnsAddAuthority s.service 255 = _
  rw [txtAdds_authority, ← s.fqsn_mem, ← n.fqdn_mem]
  rfl

theorem addAllServices_answers (n : NamedResponder) (ttl : Nat) :
    responderAddAllServices n.responder .answers ttl =
      ((n.services.flatMap (fun s => s.announced n.fqdn ttl)).map Entry.proposed).flatMap Entry.answerAdds := by
  rw [responderAddAllServices, ← n.services_eq, flatMap_map, flatMap_map, flatMap_assoc]
  congr 1
  funext s
  show _ :: _ :: _ :: _ :: txtAdds mdnsAddAnswer s.service ttl = _
  rw [txtAdds_answer, ← s.fqsn_mem, ← s.ptr_mem, ← n.fqdn_mem, flatMap_map]
  rfl

theorem queryAdds_eq (n : NamedResponder) :
    [fun m => mdnsAddQuestion m n.responder.fqdn tAny cIn,
      fun m => mdnsAddQuestion m n.responder.inAddrArpa tAny cIn] ++
      responderAddAllServices n.responder .questions 0 = n.query.adds := by
  rw [addAllServices_questions, ← n.fqdn_mem, ← n.arpa_mem]
  simp only [Plan.adds, NamedResponder.query, NamedResponder.questions, flatMap_nil, append_nil]
  rfl

theorem probeAdds_eq (n : NamedResponder) : probeAdds n.responder = n.probe.adds := by
  rw [probeAdds, queryAdds_eq, addAllServices_authorities, ← n.fqdn_mem, ← n.arpa_mem]
  simp only [Plan.adds, NamedResponder.query, NamedResponder.probe, flatMap_nil, append_nil, append_assoc]
  rfl

theorem announcementAdds_eq (n : NamedResponder) (ttl : Nat) :
    announcementAdds n.responder ttl = (n.announcement ttl).adds := by
  rw [announcementAdds, addAllServices_answers, ← n.fqdn_mem, ← n.arpa_mem]
  simp only [Plan.adds, NamedResponder.announcement, NamedResponder.records, flatMap_nil, append_nil, map_nil,
    nil_append]
  rfl

end plans

section wire
variable {mem : Mem} {ls : Labels} {r r0 : Responder} {s : Service} {domname : CString}

structure NameOf (mem : Mem) (ls : Labels) : Prop where
  written : At mem 0 (encodeName ls)
  sizes : ∀ l ∈ ls, 0 < l.length ∧ l.length < 64
  fits : (encodeName ls).length ≤ maxNameLen

theorem NameOf.expands (h : NameOf mem ls) : Expands (.plain mem) 0 ls := expands_encodeName h.sizes h.written

theorem NameOf.plainLabels (h : NameOf mem ls) : plainLabels mem = ls := plainLabels_eq h.expands

def WireName.ofName (mem : Mem) (h : ∃ ls, NameOf mem ls) : WireName where
  mem := mem
  labels := plainLabels mem
  written := by
    obtain ⟨ls, h⟩ := h
    rw [h.plainLabels]
    exact h.written
  sizes := by
    obtain ⟨ls, h⟩ := h
    rw [h.plainLabels]
    exact h.sizes
  fits := by
    obtain ⟨ls, h⟩ := h
    rw [h.plainLabels]
    exact h.fits

/-- The name of a service is a label before its type, and `ptrname` points to the type. -/
structure Service.WellNamed (domname : CString) (s : Service) : Prop where
  fqsn : ∃ l, NameOf s.fqsn (l :: s.suffix domname)
  ptrname : s.ptrname = 1 + byte s.fqsn 0

structure Responder.WellNamed (r : Responder) : Prop where
  fqdn : ∃ l, NameOf r.fqdn [l, r.domname.1]
  arpa : r.inAddrArpa = ipaddrToInaddrarpa r.myIpaddr
  services : ∀ s ∈ r.services, s.WellNamed r.domname

theorem Service.WellNamed.ptr (h : s.WellNamed domname) : NameOf s.ptr (s.suffix domname) := by
  obtain ⟨l, hname⟩ := h.fqsn
  have hl := hname.sizes l (.head _)
  have hlen : s.ptrname = l.length + 1 := by
    have hbyte : byte s.fqsn 0 = l.length := by
      have hwritten := hname.written
      rw [encodeName_cons] at hwritten
      exact (byte_putLabel hl hwritten.take).1
    rw [h.ptrname, hbyte, Nat.add_comm]
  refine ⟨?_, fun l' hl' => hname.sizes l' (.tail _ hl'), ?_⟩
  · obtain ⟨front, back, heq, hf⟩ := hname.written
    obtain rfl := eq_nil_of_length_eq_zero hf
    refine ⟨[], back, ?_, rfl⟩
    rw [Service.ptr, heq, hlen, encodeName_cons, nil_append, append_assoc, nil_append]
    exact drop_left' rfl
  · have hfits := hname.fits
    rw [length_encodeName_cons] at hfits
    omega

theorem length_decimal (b : Nat) : 0 < (decimal b).length ∧ (decimal b).length < 64 := by
  unfold decimal
  split_ifs <;> exact ⟨by simp, by simp⟩

def arpaLabels (ipaddr : Nat) : Labels :=
  [decimal (ipaddr % 256), decimal (ipaddr / 256 % 256), decimal (ipaddr / 65536 % 256),
    decimal (ipaddr / 16777216 % 256), [105, 110, 45, 97, 100, 100, 114], [97, 114, 112, 97]]

theorem decimal_length_le (b : Nat) : (decimal b).length ≤ 3 := by
  unfold decimal
  split_ifs <;> simp

theorem nameOf_arpa (ipaddr : Nat) : NameOf (ipaddrToInaddrarpa ipaddr) (arpaLabels ipaddr) where
  written := ⟨[], [], by simp [ipaddrToInaddrarpa, arpaLabels], rfl⟩
  sizes := by
    intro l hl
    simp only [arpaLabels, mem_cons, not_mem_nil, or_false] at hl
    rcases hl with rfl | rfl | rfl | rfl | rfl | rfl
    · exact length_decimal _
    · exact length_decimal _
    · exact length_decimal _
    · exact length_decimal _
    · decide
    · decide
  fits := by
    have h1 := decimal_length_le (ipaddr % 256)
    have h2 := decimal_length_le (ipaddr / 256 % 256)
    have h3 := decimal_length_le (ipaddr / 65536 % 256)
    have h4 := decimal_length_le (ipaddr / 16777216 % 256)
    simp only [arpaLabels, length_encodeName_cons, length_encodeName_nil, length_cons, length_nil, maxNameLen]
    omega

theorem Service.WellNamed.named (h : s.WellNamed domname) : ∃ ls, NameOf s.fqsn ls := by
  obtain ⟨l, hl⟩ := h.fqsn
  exact ⟨_, hl⟩

theorem Responder.WellNamed.named (h : r.WellNamed) : ∃ ls, NameOf r.fqdn ls := by
  obtain ⟨l, hl⟩ := h.fqdn
  exact ⟨_, hl⟩

theorem Responder.WellNamed.reverse (h : r.WellNamed) : ∃ ls, NameOf r.inAddrArpa ls := by
  rw [h.arpa]
  exact ⟨_, nameOf_arpa r.myIpaddr⟩

def Service.wire (s : Service) (h : s.WellNamed domname) : NamedService where
  service := s
  fqsn := WireName.ofName s.fqsn h.named
  ptr := WireName.ofName s.ptr ⟨_, h.ptr⟩
  fqsn_mem := rfl
  ptr_mem := rfl

def Responder.wire (r : Responder) (h : r.WellNamed) : NamedResponder where
  responder := r
  fqdn := WireName.ofName r.fqdn h.named
  arpa := WireName.ofName r.inAddrArpa h.reverse
  services := r.services.pmap (fun s hs => s.wire hs) h.services
  fqdn_mem := rfl
  arpa_mem := rfl
  services_eq := by
    rw [List.map_pmap]
    simp only [Service.wire, List.pmap_eq_map, List.map_id']

structure NamedResponder.Proper (n : NamedResponder) : Prop where
  fqdn : ∃ l, n.fqdn.labels = [l, n.responder.domname.1]
  arpa : n.arpa.labels = arpaLabels n.responder.myIpaddr
  services : ∀ s ∈ n.services, (∃ l, s.fqsn.labels = l :: s.service.suffix n.responder.domname) ∧
    s.ptr.labels = s.service.suffix n.responder.domname

theorem Responder.wire_proper (r : Responder) (h : r.WellNamed) : (r.wire h).Proper where
  fqdn := by
    obtain ⟨l, hl⟩ := h.fqdn
    exact ⟨l, hl.plainLabels⟩
  arpa := by
    have hname := nameOf_arpa r.myIpaddr
    rw [← h.arpa] at hname
    exact hname.plainLabels
  services := by
    intro s hs
    obtain ⟨s', hs', rfl⟩ := mem_pmap.mp hs
    have hw := h.services s' hs'
    obtain ⟨l, hl⟩ := hw.fqsn
    exact ⟨⟨l, hl.plainLabels⟩, hw.ptr.plainLabels⟩

theorem Naming.wellNamed (hr : r0.Renamable) (harpa : r0.inAddrArpa = ipaddrToInaddrarpa r0.myIpaddr)
    (h : Naming r0 r) :
    r.WellNamed := by
  have hdom : r.domname = r0.domname := by rw [h.config]
  refine ⟨?_, ?_, ?_⟩
  · obtain ⟨k, hk⟩ := h.fqdn
    refine ⟨labelAfter k r0.hname.1, ?_⟩
    rw [hdom]
    refine ⟨hk.name, hk.wellFormed hr.name, ?_⟩
    have h1 := hk.label
    have h2 := hr.name.others _ (.head _)
    rw [length_encodeName_cons, length_encodeName_cons, length_encodeName_nil, maxNameLen]
    omega
  · rw [h.config]
    exact harpa
  · intro s hs
    obtain ⟨i, hi⟩ := getElem?_of_mem hs
    obtain ⟨s0, hs0, k, hk⟩ := forall₂_getElem? h.services hi
    have hname := (hr.services s0 (mem_of_getElem? hs0)).name
    have hsuffix : s.suffix r.domname = s0.suffix r0.domname := by
      rw [hk.config, hdom]
      rfl
    refine ⟨⟨labelAfter k s0.servname.1, ?_⟩, hk.ptrname⟩
    rw [hsuffix]
    refine ⟨hk.fqsn.name, hk.fqsn.wellFormed hname, ?_⟩
    have h1 := hk.fqsn.label
    have h2 := hname.others (underscore :: s0.servtype.1) (mem_suffix.mpr (.inl rfl))
    have h3 := hname.others r0.domname.1 (mem_suffix.mpr (.inr (.inr rfl)))
    rw [length_cons] at h2
    rw [length_serviceName, maxNameLen]
    omega

end wire

section sizes
variable {n : NamedResponder} {s : NamedService} {ttl : Nat}

def WireName.size (w : WireName) : Nat := (encodeName w.labels).length

theorem length_asked (q : Asked) : q.bytes.length = q.name.size + 4 := by
  simp [Asked.bytes, setUint16, WireName.size]

theorem length_proposed (e : Entry WireName) : e.proposed.bytes.length = e.owner.size + 10 + e.data.bytes.length :=
  e.proposed.length_bytes

theorem length_srvData (weight port : Nat) (target : WireName) :
    (Rdata.srv weight port target).bytes.length = target.size + 6 := by
  simp [Rdata.bytes, setUint16, WireName.size]

def bytesOf (es : List (Entry WireName)) : Nat := ((es.map Entry.proposed).flatMap Entry.bytes).length

theorem bytesOf_cons (e : Entry WireName) (es : List (Entry WireName)) :
    bytesOf (e :: es) = e.owner.size + 10 + e.data.bytes.length + bytesOf es := by
  rw [bytesOf, map_cons, flatMap_cons, length_append, length_proposed]
  rfl

theorem bytesOf_flatMap {α : Type} (f : α → List (Entry WireName)) (xs : List α) :
    bytesOf (xs.flatMap f) = (xs.map (fun x => bytesOf (f x))).sum := by
  induction xs with
  | nil => rfl
  | cons x xs ih =>
    rw [map_cons, sum_cons, ← ih, flatMap_cons, bytesOf, map_append, flatMap_append,
      length_append]
    rfl

def NamedService.txtSize (s : NamedService) : Nat :=
  match s.service.keyvals with
  | none => 0
  | some _ => s.fqsn.size + 10 + s.service.kvlen

theorem bytesOf_txt (s : NamedService) (ttl : Nat) : bytesOf (s.txt ttl) = s.txtSize := by
  unfold NamedService.txt NamedService.txtSize
  cases s.service.keyvals with
  | none => rfl
  | some keyvals =>
    rw [bytesOf_cons]
    show s.fqsn.size + 10 + (slice keyvals 0 s.service.kvlen).length + 0 = _
    rw [slice_length, Nat.add_zero]

/-- What a service takes in a probe: its question, the SRV record and the TXT record. -/
def NamedService.probeSize (fqdn : Nat) (s : NamedService) : Nat :=
  (s.fqsn.size + 4) + (s.fqsn.size + 16 + fqdn) + s.txtSize

/-- What a service takes in an announcement: the SRV, the PTR and the TXT record. -/
def NamedService.announcedSize (fqdn : Nat) (s : NamedService) : Nat :=
  (s.fqsn.size + 16 + fqdn) + (s.ptr.size + 10 + s.fqsn.size) + s.txtSize

theorem bytesOf_proposed (s : NamedService) (fqdn : WireName) :
    bytesOf (s.proposed fqdn) = s.fqsn.size + 16 + fqdn.size + s.txtSize := by
  rw [NamedService.proposed, bytesOf_cons, bytesOf_txt]
  show s.fqsn.size + 10 + (Rdata.srv 0 s.service.port fqdn).bytes.length + s.txtSize = _
  rw [length_srvData]
  omega

theorem bytesOf_announced (s : NamedService) (fqdn : WireName) (ttl : Nat) :
    bytesOf (s.announced fqdn ttl) = s.announcedSize fqdn.size := by
  rw [NamedService.announced, bytesOf_cons, bytesOf_cons, bytesOf_txt]
  show s.fqsn.size + 10 + (Rdata.srv 0 s.service.port fqdn).bytes.length +
    (s.ptr.size + 10 + s.fqsn.size + s.txtSize) = _
  rw [length_srvData, NamedService.announcedSize]
  omega

theorem length_questions (n : NamedResponder) : (n.questions.flatMap Asked.bytes).length =
    n.fqdn.size + n.arpa.size + 8 + (n.services.map (fun s => s.fqsn.size + 4)).sum := by
  have hsum : ∀ ss : List NamedService, ((ss.map NamedService.question).flatMap Asked.bytes).length =
      (ss.map (fun s => s.fqsn.size + 4)).sum := by
    intro ss
    induction ss with
    | nil => rfl
    | cons s ss ih =>
      rw [map_cons, flatMap_cons, length_append, ih, length_asked]
      rfl
  rw [NamedResponder.questions, flatMap_cons, flatMap_cons, length_append, length_append, length_asked,
    length_asked, hsum]
  show n.fqdn.size + 4 + (n.arpa.size + 4 + _) = _
  omega

theorem NamedResponder.probe_length (n : NamedResponder) : headerSize + n.probe.body.length =
    44 + 3 * n.fqdn.size + 2 * n.arpa.size + (n.services.map (NamedService.probeSize n.fqdn.size)).sum := by
  have hrecords : ((n.probe.authorities.map Entry.proposed).flatMap Entry.bytes).length = n.fqdn.size + 14 +
      (n.arpa.size + 10 + n.fqdn.size) +
        (n.services.map (fun s => s.fqsn.size + 16 + n.fqdn.size + s.txtSize)).sum := by
    show bytesOf (n.address 255 :: n.reverse 255 :: n.services.flatMap (fun s => s.proposed n.fqdn)) = _
    rw [bytesOf_cons, bytesOf_cons, bytesOf_flatMap]
    simp only [bytesOf_proposed]
    show n.fqdn.size + 10 + 4 + (n.arpa.size + 10 + n.fqdn.size + _) = _
    omega
  have hsum : (n.services.map (NamedService.probeSize n.fqdn.size)).sum =
    (n.services.map (fun s => s.fqsn.size + 4)).sum +
      (n.services.map (fun s => s.fqsn.size + 16 + n.fqdn.size + s.txtSize)).sum := by
    rw [← sum_map_add]
    congr 1
    apply map_congr_left
    intro s _
    rw [NamedService.probeSize]
    omega
  have hquestions : (n.probe.questions.flatMap Asked.bytes).length = _ := length_questions n
  rw [Plan.body, length_append, length_append, hquestions, hrecords, hsum, headerSize]
  show 12 + (_ + 0 + _) = _
  omega

theorem NamedResponder.announcement_body (n : NamedResponder) (ttl : Nat) :
    (n.announcement ttl).body.length = bytesOf (n.records ttl) := by
  simp [Plan.body, NamedResponder.announcement, bytesOf]

theorem NamedResponder.announcement_length (n : NamedResponder) (ttl : Nat) :
    headerSize + (n.announcement ttl).body.length =
    36 + 2 * n.fqdn.size + n.arpa.size + (n.services.map (NamedService.announcedSize n.fqdn.size)).sum := by
  have hsum : (n.services.map (fun s => bytesOf (s.announced n.fqdn ttl))).sum =
      (n.services.map (NamedService.announcedSize n.fqdn.size)).sum := by
    congr 1
    apply map_congr_left
    intro s _
    exact bytesOf_announced s n.fqdn ttl
  rw [n.announcement_body, NamedResponder.records, bytesOf_cons, bytesOf_cons, bytesOf_flatMap, hsum, headerSize]
  show 12 + (n.fqdn.size + 10 + 4 + (n.arpa.size + 10 + n.fqdn.size + _)) = _
  omega

end sizes

section prepare
variable {n : NamedResponder} {e : Entry WireName}

structure Responder.Typed (r : Responder) : Prop where
  ipaddr : r.myIpaddr < 4294967296
  ports : ∀ s ∈ r.services, s.port < 65536

theorem NamedResponder.port_lt (h : n.responder.Typed) {s : NamedService} (hs : s ∈ n.services) :
    s.service.port < 65536 := by
  apply h.ports
  rw [← n.services_eq]
  exact List.mem_map_of_mem hs

theorem Entry.proposed_valid {refs : Nat → Labels → Prop} (htype : e.type < 65536) (hcls : e.cls = cFlush)
    (httl : e.ttl < uint32Max) (hdata : e.data.Fits refs e.type) : e.proposed.Valid refs where
  owner := ⟨_, rfl⟩
  type := htype
  cls := by
    show e.cls < 65536
    rw [hcls]
    decide
  ttl := httl
  data := hdata

variable {s : NamedService} {ttl : Nat} (refs : Nat → Labels → Prop)

theorem NamedResponder.address_valid (h : n.responder.Typed) (httl : ttl < uint32Max) :
    (n.address ttl).proposed.Valid refs :=
  Entry.proposed_valid (show tA < 65536 by decide) rfl httl ⟨h.ipaddr,
    show tA ≠ tPtr by decide, show tA ≠ tSrv by decide⟩

theorem NamedResponder.reverse_valid (httl : ttl < uint32Max) : (n.reverse ttl).proposed.Valid refs :=
  Entry.proposed_valid (show tPtr < 65536 by decide) rfl httl (show tPtr ≠ tA by decide)

theorem NamedService.srv_valid (h : s.service.port < 65536) (fqdn : WireName) (httl : ttl < uint32Max) :
    (s.srv fqdn ttl).proposed.Valid refs :=
  Entry.proposed_valid (show tSrv < 65536 by decide) rfl httl ⟨show tSrv ≠ tA by decide, by decide, h⟩

theorem NamedService.pointer_valid (httl : ttl < uint32Max) : (s.pointer ttl).proposed.Valid refs :=
  Entry.proposed_valid (show tPtr < 65536 by decide) rfl httl (show tPtr ≠ tA by decide)

theorem NamedService.of_mem_txt (he : e ∈ s.txt ttl) :
    ∃ keyvals, s.service.keyvals = some keyvals ∧
      e = { owner := s.fqsn, type := tTxt, cls := cFlush, ttl, data := .txt keyvals s.service.kvlen } := by
  unfold NamedService.txt at he
  cases hk : s.service.keyvals with
  | none =>
    rw [hk] at he
    cases he
  | some keyvals =>
    rw [hk] at he
    exact ⟨keyvals, rfl, mem_singleton.mp he⟩

theorem NamedService.txt_valid (httl : ttl < uint32Max) (he : e ∈ s.txt ttl) :
    e.proposed.Valid refs := by
  obtain ⟨keyvals, -, rfl⟩ := NamedService.of_mem_txt he
  exact Entry.proposed_valid (show tTxt < 65536 by decide) rfl httl
    ⟨show tTxt ≠ tA by decide, show tTxt ≠ tPtr by decide, show tTxt ≠ tSrv by decide⟩

theorem NamedResponder.asked_bounded (n : NamedResponder) : ∀ q ∈ n.questions, q.Bounded := by
  intro q hq
  have hany : q.type = tAny ∧ q.cls = cIn := by
    rcases mem_cons.mp hq with rfl | hq
    · exact ⟨rfl, rfl⟩
    · rcases mem_cons.mp hq with rfl | hq
      · exact ⟨rfl, rfl⟩
      · obtain ⟨s, -, rfl⟩ := List.mem_map.mp hq
        exact ⟨rfl, rfl⟩
  exact ⟨by rw [hany.1]; decide, by rw [hany.2]; decide⟩

theorem NamedResponder.length_questions_le (hn : n.services.length ≤ 30) : n.questions.length ≤ maxQuestions := by
  simp only [NamedResponder.questions, length_cons, length_map, maxQuestions]
  omega

theorem NamedResponder.probe_sound (h : n.responder.Typed) (hn : n.services.length ≤ 30) : n.probe.Sound where
  questions := NamedResponder.length_questions_le hn
  last := .inl (Nat.zero_le _)
  asked := n.asked_bounded
  answer := nofun
  authority := by
    intro e he
    rcases mem_cons.mp he with rfl | he
    · exact address_valid _ h (by decide)
    · rcases mem_cons.mp he with rfl | he
      · exact reverse_valid _ (by decide)
      · obtain ⟨s, hs, he⟩ := mem_flatMap.mp he
        rcases mem_cons.mp he with rfl | he
        · exact NamedService.srv_valid _ (port_lt h hs) _ (by decide)
        · exact NamedService.txt_valid _ (by decide) he

theorem NamedResponder.announcement_sound (h : n.responder.Typed) {ttl : Nat} (httl : ttl < uint32Max) :
    (n.announcement ttl).Sound where
  questions := Nat.zero_le _
  last := .inr rfl
  asked := nofun
  authority := nofun
  answer := by
    intro x hx
    obtain ⟨e, he, rfl⟩ := List.mem_map.mp hx
    rcases mem_cons.mp he with rfl | he
    · exact address_valid _ h httl
    · rcases mem_cons.mp he with rfl | he
      · exact reverse_valid _ httl
      · obtain ⟨s, hs, he⟩ := mem_flatMap.mp he
        rcases mem_cons.mp he with rfl | he
        · exact NamedService.srv_valid _ (port_lt h hs) _ httl
        · rcases mem_cons.mp he with rfl | he
          · exact NamedService.pointer_valid _ httl
          · exact NamedService.txt_valid _ httl he

theorem NamedResponder.prepareProbe_comes (h : n.responder.Typed) (hn : n.services.length ≤ 30)
    (hroom : headerSize + n.probe.body.length ≤ dataMax) (m : Message) :
    ∃ built : Message, built.Holds n.probe.header n.probe.body ∧
      Comes (fun fuel => prepareProbe fuel n.responder m)
        (some ({ n.probe.cut.parsed built.data built.cur with mend := dataMax - 1 }, 0)) := by
  have hsound := probe_sound h hn
  obtain ⟨built, hadd, hm⟩ := @Plan.built n.probe m hsound.hasTtls hroom
  refine ⟨built, hm, ?_⟩
  obtain ⟨fuel, hparse⟩ := (hsound.parse hm (by rw [hm.cur]; exact hroom)).1
  have hadd' : addAll (probeAdds n.responder) (mdnsQueryInit m) = (built, true) := by
    rw [probeAdds_eq]
    exact hadd
  refine ⟨fuel, ?_⟩
  intro fuel' hle
  have hok : mdnsParseMessage fuel' built.data built.cur = _ := hparse fuel' hle
  unfold prepareProbe
  rw [hadd']
  dsimp only
  rw [hok]

theorem addAll_full {plan : Plan} (httl : plan.HasTtls)
    (hfull : dataMax < headerSize + plan.body.length) (m : Message) :
    (addAll plan.adds (plan.init m)).2 = false := by
  have hinit := plan.holds_init m
  have hcur : (plan.init m).cur = headerSize := hinit.cur
  apply ((plan.appendsAll httl).addAll hinit (by rw [hcur]; decide)).2
  rwa [hcur]

end prepare

end Mdns
