import Mdns.Discover.Packet
import Mdns.Respond.Run

/-!
# A host among others

A responder without services, as the others in the network see it. The answer to a probe has at most
four records, so it is never too long to be sent.
-/
namespace Mdns
open Lib List Option

section lone
variable {domain : CString} {ipaddr : Nat} {r r' : Responder} {hostname : CString}

/-- A host without services whose name is on the chain of the configured one. The domain may be
empty, and the name then ends behind its first label. -/
structure Lone (domain : CString) (ipaddr : Nat) (r : Responder) : Prop where
  domname : r.domname = domain
  short : domain.1.length ≤ 63
  hname : 0 < r.hname.1.length ∧ r.hname.1.length ≤ 61
  myIpaddr : r.myIpaddr = ipaddr
  small : ipaddr < 4294967296
  arpa : r.inAddrArpa = ipaddrToInaddrarpa ipaddr
  services : r.services = []
  buffer : r.fqdn.length = maxNameLen + 1
  fqdn : ∃ k, OnChain r.hname.1 (wireLabels [domain.1]) r.fqdn k

def Responder.card (r : Responder) : CString × CString × Nat × Mem × List Service × Mem :=
  (r.hname, r.domname, r.myIpaddr, r.inAddrArpa, r.services, r.fqdn)

theorem Lone.of_card (h : Lone domain ipaddr r) (heq : r'.card = r.card) : Lone domain ipaddr r' := by
  simp only [Responder.card, Prod.mk.injEq] at heq
  obtain ⟨h1, h2, h3, h4, h5, h6⟩ := heq
  refine ⟨h2.trans h.domname, h.short, ?_, h3.trans h.myIpaddr, h.small, h4.trans h.arpa, h5.trans h.services, ?_, ?_⟩
  · rw [h1]
    exact h.hname
  · rw [h6]
    exact h.buffer
  · rw [h1, h6]
    exact h.fqdn

theorem mem_wireLabels_singleton {d l : List UInt8} (h : l ∈ wireLabels [d]) : l = d ∧ 0 < l.length := by
  by_cases hd : d = []
  · subst hd
    cases h
  · rw [wireLabels_cons hd] at h
    obtain rfl := mem_singleton.mp h
    exact ⟨rfl, length_pos_iff.mpr hd⟩

theorem nameable_host (hname : 0 < hostname.1.length ∧ hostname.1.length ≤ 61) (hshort : domain.1.length ≤ 63) :
    Nameable hostname.1 (wireLabels [domain.1]) where
  first := by omega
  others := by
    intro l hl
    obtain ⟨rfl, hpos⟩ := mem_wireLabels_singleton hl
    omega
  renamable := by
    refine .inr (.inr ⟨hname.2, ?_⟩)
    intro l hl
    rcases mem_cons.mp hl with rfl | hl
    · exact hostname.2
    · obtain ⟨rfl, -⟩ := mem_wireLabels_singleton hl
      exact domain.2

theorem Lone.nameable (h : Lone domain ipaddr r) : Nameable r.hname.1 (wireLabels [domain.1]) :=
  nameable_host h.hname h.short

theorem onChain_host (hname : 0 < hostname.1.length ∧ hostname.1.length ≤ 61) (hshort : domain.1.length ≤ 63)
    (buf : Mem) : OnChain hostname.1 (wireLabels [domain.1]) (writeAt buf 0 (encodeName [hostname.1, domain.1])) 0 := by
  refine onChain_zero (nameable_host hname hshort) ?_
  obtain ⟨rest, hrest⟩ := encodeName_wireLabels [hostname.1, domain.1]
  rw [wireLabels_cons (length_pos_iff.mp hname.1)] at hrest
  rw [hrest]
  exact (at_reset buf).take

theorem length_writeAt_host (hname : 0 < hostname.1.length ∧ hostname.1.length ≤ 61)
    (hshort : domain.1.length ≤ 63) {buf : Mem} (hbuf : buf.length = maxNameLen + 1) :
    (writeAt buf 0 (encodeName [hostname.1, domain.1])).length = maxNameLen + 1 := by
  rw [length_writeAt, hbuf]
  rw [length_encodeName_cons, length_encodeName_cons, length_encodeName_nil, hbuf, maxNameLen]
  omega

theorem length_encodeName_wireLabels (d : List UInt8) : (encodeName (wireLabels [d])).length ≤ d.length + 2 := by
  obtain ⟨rest, hrest⟩ := encodeName_wireLabels [d]
  have hlen := congrArg List.length hrest
  rw [length_append, length_encodeName_cons, length_encodeName_nil] at hlen
  omega

theorem Lone.room (h : Lone domain ipaddr r) :
    (encodeName (r.hname.1 :: wireLabels [domain.1])).length + 2 ≤ r.fqdn.length := by
  have h1 := h.hname
  have h2 := h.short
  have h3 := length_encodeName_wireLabels domain.1
  rw [h.buffer, length_encodeName_cons, maxNameLen]
  omega

theorem Lone.nameOf (h : Lone domain ipaddr r) : ∃ ls, NameOf r.fqdn ls ∧ (encodeName ls).length ≤ 129 := by
  obtain ⟨k, hk⟩ := h.fqdn
  have hlen : (encodeName (labelAfter k r.hname.1 :: wireLabels [domain.1])).length ≤ 129 := by
    have h1 := hk.label
    have h2 := h.short
    have h3 := length_encodeName_wireLabels domain.1
    rw [length_encodeName_cons]
    omega
  exact ⟨_, ⟨hk.name, hk.wellFormed h.nameable, Nat.le_trans hlen (by decide)⟩, hlen⟩

theorem Lone.named (h : Lone domain ipaddr r) : ∃ ls, NameOf r.fqdn ls := by
  obtain ⟨ls, hls, -⟩ := h.nameOf
  exact ⟨ls, hls⟩

theorem Lone.reverse (h : Lone domain ipaddr r) : ∃ ls, NameOf r.inAddrArpa ls := by
  rw [h.arpa]
  exact ⟨_, nameOf_arpa ipaddr⟩

def Lone.wire (h : Lone domain ipaddr r) : NamedResponder where
  responder := r
  fqdn := WireName.ofName r.fqdn h.named
  arpa := WireName.ofName r.inAddrArpa h.reverse
  services := []
  fqdn_mem := rfl
  arpa_mem := rfl
  services_eq := h.services.symm

theorem Lone.fqdn_size (h : Lone domain ipaddr r) : h.wire.fqdn.size ≤ 129 := by
  obtain ⟨ls, hls, hlen⟩ := h.nameOf
  show (encodeName (plainLabels r.fqdn)).length ≤ 129
  rw [hls.plainLabels]
  exact hlen

theorem Lone.arpa_size (h : Lone domain ipaddr r) : h.wire.arpa.size ≤ 255 := h.wire.arpa.fits

theorem Lone.typed (h : Lone domain ipaddr r) : r.Typed where
  ipaddr := by
    rw [h.myIpaddr]
    exact h.small
  ports := by
    intro s hs
    rw [h.services] at hs
    cases hs

theorem Lone.expands (h : Lone domain ipaddr r) : Expands (.plain r.fqdn) 0 (plainLabels r.fqdn) := by
  obtain ⟨ls, hls⟩ := h.named
  rw [hls.plainLabels]
  exact hls.expands

theorem lone_launch {fuel rand : Nat} {fqdn : Mem} {tx rx : Message}
    (h : responderLaunch fuel ipaddr domain hostname [] fqdn tx rx = some (.ok r))
    (hname : 0 < hostname.1.length ∧ hostname.1.length ≤ 61) (hip : ipaddr < 4294967296)
    (hbuf : fqdn.length = maxNameLen + 1) :
    Lone domain ipaddr (startResponder r rand) := by
  obtain ⟨-, hdomain, ss, _, _, hss, -, -, rfl⟩ := responderLaunch_eq h
  obtain rfl : [] = ss := Except.ok.inj hss
  have hshort : domain.1.length ≤ 63 := (of_decide_eq_true hdomain).1
  exact ⟨rfl, hshort, hname, rfl, hip, rfl, rfl, length_writeAt_host hname hshort hbuf, 0,
    onChain_host hname hshort fqdn⟩

end lone

section conflicts
variable {domain : CString} {ipaddr fuel : Nat} {r r' : Responder} {ret ret' : Int} {m p : Message}

theorem Lone.renameHost (h : Lone domain ipaddr r) (hren : renameHost r ret = some (r', ret')) :
    Lone domain ipaddr r' ∧ (ret = 0 ∨ ret = 1 ∨ ret = -1 → ret' = 1 ∨ ret' = -1) := by
  obtain ⟨k, hk⟩ := h.fqdn
  rcases hk.increment h.nameable h.room with ⟨-, hlast⟩ | ⟨buf, hnext, hlen, hk'⟩
  · simp only [Mdns.renameHost, hlast, bind_eq_bind, bind_some, if_true, pure, some.injEq,
      Prod.mk.injEq] at hren
    obtain ⟨rfl, rfl⟩ := hren
    refine ⟨⟨h.domname, h.short, h.hname, h.myIpaddr, h.small, h.arpa, h.services, ?_, 0, ?_⟩, fun _ => .inr rfl⟩
    · show (writeAt r.fqdn 0 (encodeName [r.hname.1, r.domname.1])).length = _
      rw [h.domname]
      exact length_writeAt_host h.hname h.short h.buffer
    · show OnChain r.hname.1 (wireLabels [domain.1]) (writeAt r.fqdn 0 (encodeName [r.hname.1, r.domname.1])) 0
      rw [h.domname]
      exact onChain_host h.hname h.short r.fqdn
  · simp only [Mdns.renameHost, hnext, bind_eq_bind, bind_some, pure, some.injEq] at hren
    rw [if_neg (by decide)] at hren
    obtain ⟨rfl, rfl⟩ := Prod.mk.inj hren
    refine ⟨⟨h.domname, h.short, h.hname, h.myIpaddr, h.small, h.arpa, h.services, hlen.trans h.buffer, k + 1, hk'⟩, ?_⟩
    rintro (rfl | rfl | rfl)
    · exact .inl rfl
    · exact .inl rfl
    · exact .inr rfl

theorem Lone.renameAll {cs : List Rename} (h : Lone domain ipaddr r) (hret : ret = 0 ∨ ret = 1 ∨ ret = -1)
    (hren : renameAll cs (r, ret) = some (r', ret')) :
    Lone domain ipaddr r' ∧ ((r' = r ∧ ret' = ret) ∨ ret' = 1 ∨ ret' = -1) := by
  induction cs generalizing r ret with
  | nil =>
    cases hren
    exact ⟨h, .inl ⟨rfl, rfl⟩⟩
  | cons c cs ih =>
    obtain ⟨⟨r1, ret1⟩, hrun, hrest⟩ := bind_eq_some_iff.mp hren
    cases c with
    | host =>
      obtain ⟨h1, hret1⟩ := h.renameHost hrun
      obtain ⟨h', hcases⟩ := ih h1 (.inr (hret1 hret)) hrest
      refine ⟨h', .inr ?_⟩
      rcases hcases with ⟨-, rfl⟩ | hcases
      · exact hret1 hret
      · exact hcases
    | service i =>
      simp [Rename.run, h.services] at hrun

theorem Lone.fixResponseConflicts (h : Lone domain ipaddr r) (hfix : fixResponseConflicts fuel r m p = some (r', ret)) :
    Lone domain ipaddr r' ∧ ((r' = r ∧ ret = 0) ∨ ret = 1 ∨ ret = -1) := by
  obtain ⟨cs, hcs⟩ := fixResponseConflicts_givesUp hfix
  exact h.renameAll (.inl rfl) hcs.renameAll

theorem Lone.dnameCmp_eq_zero (h : Lone domain ipaddr r) {q : Mem} {n : Nat} {c : Int}
    (hname : Expands (.packet q) n (plainLabels r.fqdn))
    (hcmp : dnameCmp fuel (.packet q) n (.plain r.fqdn) 0 = some c) : c = 0 := by
  have hcomes := dnameCmp_comes hname h.expands
  rw [cmpLabels_eq_zero.mpr rfl] at hcomes
  have heq := ((stable_dnameCmp _ _ _ _).returns_iff hcomes (some_ne_none c)).mp ⟨fuel, hcmp⟩
  exact (some.inj heq).symm

theorem Lone.conflict_of_answer {as : List Resource} {a : Resource} (h : Lone domain ipaddr r)
    (ha : a ∈ as) (htype : a.type = tA)
    (hname : Expands (.packet m.data) a.name (plainLabels r.fqdn))
    (hconf : answerConflicts fuel m as r 0 = some (r', ret)) :
    ret = 1 ∨ ret = -1 := by
  induction as with
  | nil => cases ha
  | cons b bs ih =>
    obtain ⟨⟨r1, ret1⟩, hhost, hconf⟩ := bind_eq_some_iff.mp hconf
    obtain ⟨cs, hcs⟩ := @answerConflictHost_givesUp _ _ _ _ _ _ (fun _ _ => True) _ (fun _ _ => trivial) hhost
    obtain ⟨h1, hcases⟩ := h.renameAll (.inl rfl) hcs.renameAll
    have hrest : answerConflicts fuel m bs r1 ret1 = some (r', ret) := by
      dsimp only at hconf
      split at hconf
      · have hnone : answerConflictServices fuel m b r1.domname r1.services ret1 = some (r1.services, ret1) := by
          rw [h1.services]
          rfl
        rw [hnone] at hconf
        exact hconf
      · exact hconf
    rcases hcases with ⟨rfl, rfl⟩ | hrenamed
    · rcases mem_cons.mp ha with rfl | ha
      · -- the record itself: the names are equal, so that the host is renamed
        unfold answerConflictHost at hhost
        rw [if_pos htype] at hhost
        obtain ⟨c, hcmp, hhost⟩ := bind_eq_some_iff.mp hhost
        rw [if_pos (h.dnameCmp_eq_zero hname hcmp)] at hhost
        have hret := (h.renameHost hhost).2 (.inl rfl)
        simp at hret
      · exact ih ha hrest
    · obtain ⟨cs', hcs'⟩ := @answerConflicts_givesUp _ _ _ _ _ _ (fun _ _ => True) _ (fun _ _ _ _ => trivial) hrest
      rcases (h1.renameAll (.inr hrenamed) hcs'.renameAll).2 with ⟨-, heq⟩ | hret
      · rwa [heq]
      · exact hret

end conflicts

section packets
variable {domain : CString} {ipaddr addr port fuel : Nat} {r : Responder} {m tx : Message} {plan : Plan} {h : Header}

def Packet.datagram (addr : Nat) (p : Packet) : Datagram := { addr, port := mdnsPort, bytes := p.bytes }

/-- Whoever receives the packet reads a message with `P`, whatever is in its buffer. -/
def Datagram.Reads (d : Datagram) (P : Message → Prop) : Prop :=
  ∀ r : Responder, ∃ m, Comes (fun fuel => r.parse fuel d) (.ok m) ∧ P m

def Datagram.Asks (d : Datagram) (f : Labels) : Prop :=
  d.Reads fun m => m.qr = false ∧ ∃ asked, Forall₂ (Mdns.Asks m) m.questions asked ∧ asked.length ≤ 2 ∧
    (f, tAny) ∈ asked

def Datagram.Claims (d : Datagram) (f : Labels) : Prop :=
  d.Reads fun m => m.qr = true ∧ ∃ a ∈ m.answers, a.type = tA ∧ Expands (.packet m.data) a.name f

theorem Datagram.Reads.parse {d : Datagram} {P : Message → Prop} {x : Res Message} (hd : d.Reads P)
    (hx : x ≠ .error .hang)
    (hparse : r.parse fuel d = x) : ∃ m, x = .ok m ∧ P m := by
  obtain ⟨m, hcomes, hP⟩ := hd r
  exact ⟨m, (((stable_mdnsParseMessage _ _).returns_iff hcomes hx).mp ⟨fuel, hparse⟩).symm, hP⟩

theorem Message.Holds.received {body : Mem} (hm : m.Holds h body) (hroom : m.cur ≤ dataMax) (r : Responder) :
    (((mdnsSendMsg m port).datagram addr).bytes.take dataMax).length = m.cur ∧
      Message.Holds { m with data := r.filled ((mdnsSendMsg m port).datagram addr) } h body := by
  have hlen : (h.bytes ++ body).length = m.cur := by
    rw [length_append, hm.length_bytes, hm.cur]
  have hbytes : ((mdnsSendMsg m port).datagram addr).bytes = h.bytes ++ body := by
    show slice m.data 0 m.cur = _
    rw [← hlen]
    exact hm.data.slice
  have htake : ((mdnsSendMsg m port).datagram addr).bytes.take dataMax = h.bytes ++ body := by
    rw [hbytes, take_of_length_le (hlen ▸ hroom)]
  refine ⟨by rw [htake, hlen], hm.id, hm.flags, hm.cur, hm.mend, ?_⟩
  show At (writeAt r.rx 0 (((mdnsSendMsg m port).datagram addr).bytes.take dataMax)) 0 _
  rw [htake]
  exact at_reset r.rx

theorem Plan.reads (hv : plan.Valid) (hh : plan.Heads h) (hm : m.Holds h plan.body) (hroom : m.cur ≤ dataMax) :
    ((mdnsSendMsg m port).datagram addr).Reads fun found => found.qr = plan.response ∧
      Forall₂ (fun (q : Asked) q' => Expands (.packet found.data) q'.qname q.name.labels ∧ q'.qtype = q.type)
        plan.questions found.questions ∧
      Forall₂ (Recorded found.data plan.Refs) plan.answers found.answers := by
  intro r
  obtain ⟨hlen, hheld⟩ := @Message.Holds.received addr port m h plan.body hm hroom r
  rw [← append_nil plan.body] at hheld
  obtain ⟨hparse, hq, ha, -⟩ := Plan.parse hv hh hheld hroom
  refine ⟨plan.parsed (r.filled ((mdnsSendMsg m port).datagram addr)) m.cur, ?_, ?_,
    hq.imp (fun _ _ h => ⟨h.1, h.2.1⟩), ha⟩
  · unfold Responder.parse
    rw [hlen]
    exact hparse
  · have hbyte : byte (plan.parsed (r.filled ((mdnsSendMsg m port).datagram addr)) m.cur).data 3 =
      if plan.response then 132 else 0 :=
      hheld.flagByte hh
    rw [Message.qr, hbyte]
    cases plan.response <;> rfl

theorem Plan.claims {n : NamedResponder} {ttl : Nat} (hv : plan.Valid) (hh : plan.Heads h) (hm : m.Holds h plan.body)
    (hroom : m.cur ≤ dataMax) (hresponse : plan.response = true) (hmem : (n.address ttl).proposed ∈ plan.answers) :
    ((mdnsSendMsg m port).datagram addr).Claims n.fqdn.labels := by
  intro r
  obtain ⟨found, hcomes, hqr, -, ha⟩ := Plan.reads hv hh hm hroom r
  refine ⟨found, hcomes, hqr.trans hresponse, ?_⟩
  obtain ⟨i, hi⟩ := getElem?_of_mem hmem
  obtain ⟨a, hfound, hrec⟩ := forall₂_getElem? ha.flip hi
  exact ⟨a, mem_of_getElem? hfound, hrec.type, hrec.name _ rfl⟩

end packets

section sent
variable {domain : CString} {ipaddr addr port fuel : Nat} {r : Responder} {m rx tx : Message}
  {plan : Plan} {n : NamedResponder}
  {asked : List (Labels × Nat)} {ret : Int}

theorem Plan.Sound.valid (h : plan.Sound) (ha : plan.answers.length ≤ maxAnswers)
    (hr : plan.authorities.length ≤ maxAuthorities) :
    plan.Valid := ⟨h.questions, ha, hr, h.asked, h.answer, h.authority⟩

theorem Message.Holds.swapFlags_query {hd : Header} {body : Mem} (hm : m.Holds hd body) (hflags : hd.flags = [0, 0]) :
    swapFlags m.data = m.data := by
  obtain ⟨front, back, heq, hf⟩ := hm.data
  obtain rfl := eq_nil_of_length_eq_zero hf
  have hsplit : m.data = hd.id ++ hd.flags ++
      (setUint16 hd.questions ++ setUint16 hd.answers ++ setUint16 hd.authorities ++ [0, 0] ++ body ++ back) := by
    rw [heq]
    simp [Header.bytes]
  rw [hsplit, swapFlags_eq hm.id hm.flags, hflags]
  rfl

theorem stable_prepareProbe (r : Responder) (m : Message) : Stable none (fun fuel => prepareProbe fuel r m) := by
  unfold prepareProbe
  split
  · exact stable_const _ _
  · next built _ =>
    intro fuel hback fuel' hle
    have hparse : mdnsParseMessage fuel built.data built.cur ≠ .error .hang := by
      intro hhang
      simp only [hhang] at hback
      exact hback rfl
    have hsame : mdnsParseMessage fuel' built.data built.cur = mdnsParseMessage fuel built.data built.cur :=
      stable_mdnsParseMessage _ _ fuel hparse fuel' hle
    simp only [hsame]

theorem Lone.probe_asks (h : Lone domain ipaddr r) (hprobe : prepareProbe fuel r m = some (tx, ret)) :
    ((mdnsSendMsg tx port).datagram addr).Asks (plainLabels r.fqdn) := by
  have hroom : headerSize + h.wire.probe.body.length ≤ dataMax := by
    have h1 := h.fqdn_size
    have h2 := h.arpa_size
    rw [h.wire.probe_length, dataMax]
    show 44 + 3 * h.wire.fqdn.size + 2 * h.wire.arpa.size + 0 ≤ 1472
    omega
  obtain ⟨built, hm, hcomes⟩ := NamedResponder.prepareProbe_comes (n := h.wire) h.typed (Nat.zero_le 30) hroom m
  have heq := ((stable_prepareProbe r m).returns_iff hcomes (some_ne_none _)).mp ⟨fuel, hprobe⟩
  obtain ⟨rfl, -⟩ := Prod.mk.inj (some.inj heq)
  have hheld : Message.Holds { h.wire.probe.cut.parsed built.data built.cur with mend := dataMax - 1 }
    h.wire.probe.header
      h.wire.probe.body := by
    refine ⟨hm.id, hm.flags, rfl, rfl, ?_⟩
    show At (swapFlags built.data) 0 _
    rw [hm.swapFlags_query rfl]
    exact hm.data
  have hvalid : h.wire.probe.Valid :=
    (NamedResponder.probe_sound (n := h.wire) h.typed (Nat.zero_le 30)).valid (Nat.zero_le _) (show 2 ≤ 32 by decide)
  intro r'
  obtain ⟨found, hparse, hqr, hq, -⟩ := Plan.reads hvalid hvalid.heads hheld hroom r'
  refine ⟨found, hparse, hqr, h.wire.questions.map (fun q => (q.name.labels, q.type)), ?_, Nat.le_refl 2, .head _⟩
  rw [forall₂_map_right_iff]
  exact hq.flip.imp (fun _ _ hq => hq)

theorem Lone.announcement_claims (h : Lone domain ipaddr r) (hann : prepareAnnouncement r m 255 = (tx, 0)) :
    ((mdnsSendMsg tx port).datagram addr).Claims (plainLabels r.fqdn) := by
  have hsound := NamedResponder.announcement_sound (n := h.wire) h.typed (show 255 < uint32Max by decide)
  have hvalid := hsound.valid (show 2 ≤ 32 by decide) (Nat.zero_le _)
  obtain ⟨hm, hroom⟩ := NamedResponder.announcement_holds (R := h.wire) h.typed hann
  exact Plan.claims hvalid hvalid.heads hm (hm.cur ▸ hroom) rfl (.head _)

theorem respond_lone (asked : List (Labels × Nat)) :
    (n.respond asked []).1 = asked.flatMap n.ownAnswers ∧ (n.respond asked []).2.2 = false := by
  induction asked with
  | nil => exact ⟨rfl, rfl⟩
  | cons q asked ih =>
    obtain ⟨ih1, ih2⟩ := ih
    refine ⟨?_, ?_⟩
    · show n.ownAnswers q ++ [] ++ (n.respond asked []).1 = _
      rw [ih1, append_nil, flatMap_cons]
    · show (false || (n.respond asked []).2.2) = false
      rw [ih2]
      rfl

theorem bytesOf_ownAnswers (n : NamedResponder) (q : Labels × Nat) :
    bytesOf (n.ownAnswers q) ≤ 2 * n.fqdn.size + n.arpa.size + 24 ∧ (n.ownAnswers q).length ≤ 2 := by
  have haddress : bytesOf [n.address 255] = n.fqdn.size + 14 := bytesOf_cons _ _
  have hreverse : bytesOf [n.reverse 255] = n.arpa.size + 10 + n.fqdn.size := bytesOf_cons _ _
  have hboth : bytesOf [n.address 255, n.reverse 255] = n.fqdn.size + 14 + (n.arpa.size + 10 + n.fqdn.size) := by
    rw [bytesOf_cons, hreverse]
    rfl
  have hnone : bytesOf [] = 0 := rfl
  unfold NamedResponder.ownAnswers NamedResponder.hostAnswers NamedResponder.reverseAnswers
  split_ifs
  · exact ⟨by rw [singleton_append, hboth]; omega, Nat.le_refl 2⟩
  · exact ⟨by rw [append_nil, haddress]; omega, Nat.le_succ 1⟩
  · exact ⟨by rw [nil_append, hreverse]; omega, Nat.le_succ 1⟩
  · exact ⟨by rw [append_nil, hnone]; omega, Nat.zero_le 2⟩

theorem Lone.reply_claims (h : Lone domain ipaddr r) (hqr : rx.qr = false)
    (hasked : Forall₂ (Mdns.Asks rx) rx.questions asked)
    (hfew : asked.length ≤ 2) (hmem : (plainLabels r.fqdn, tAny) ∈ asked)
    (hprep : prepareResponse fuel r rx m = some (tx, ret)) :
    ret = 1 ∧ ((mdnsSendMsg tx port).datagram addr).Claims (plainLabels r.fqdn) := by
  obtain ⟨tx', ret', hcomes, hfits, -⟩ := prepareResponse_comes h.wire hqr hasked m
  have heq := ((stable_prepareResponse r rx m).returns_iff hcomes (some_ne_none _)).mp ⟨fuel, hprep⟩
  obtain ⟨rfl, rfl⟩ := Prod.mk.inj (some.inj heq)
  have hes : (h.wire.responses asked).1 = asked.flatMap h.wire.ownAnswers := (respond_lone asked).1
  have hsum : ∀ {f : Labels × Nat → Nat} {b : Nat}, (∀ q, f q ≤ b) → (asked.map f).sum ≤ 2 * b := by
    intro f b hf
    refine Nat.le_trans (sum_le_card_nsmul _ b ?_) (Nat.mul_le_mul_right _ (by rwa [length_map]))
    exact List.forall_mem_map.mpr (fun q _ => hf q)
  have hbytes : bytesOf (h.wire.responses asked).1 ≤ 2 * (2 * h.wire.fqdn.size + h.wire.arpa.size + 24) := by
    rw [hes, bytesOf_flatMap]
    exact hsum (fun q => (bytesOf_ownAnswers h.wire q).1)
  have hcount : (h.wire.responses asked).1.length ≤ 2 * 2 := by
    rw [hes, length_flatMap]
    exact hsum (fun q => (bytesOf_ownAnswers h.wire q).2)
  have hroom : headerSize + bytesOf (h.wire.responses asked).1 ≤ dataMax := by
    have h1 := h.fqdn_size
    have h2 := h.arpa_size
    rw [dataMax, headerSize]
    omega
  have hdue : h.wire.Due (plainLabels r.fqdn, tAny) (h.wire.address 255) := .address (.inl rfl) rfl
  obtain ⟨hbits, hm⟩ := hfits hroom
  constructor
  · have hsend : (h.wire.responses asked).2.1 = true := respond_send.mpr ⟨_, hmem, _, hdue⟩
    have hdelay : (h.wire.responses asked).2.2 = false := (respond_lone asked).2
    rw [hbits, hsend, hdelay]
    rfl
  · let plan : Plan :=
      { response := true, questions := [], answers := (h.wire.responses asked).1.map Entry.proposed, authorities := [] }
    have hvalid : plan.Valid := by
      refine ⟨Nat.zero_le _, ?_, Nat.zero_le _, fun q hq => (by cases hq), ?_, fun x hx => (by cases hx)⟩
      · show ((h.wire.responses asked).1.map Entry.proposed).length ≤ 32
        rw [length_map]
        omega
      · intro x hx
        obtain ⟨e, he, rfl⟩ := List.mem_map.mp hx
        obtain ⟨q, -, hdue | ⟨s, hs, -⟩⟩ := mem_responses.mp he
        · cases hdue with
          | address _ _ => exact NamedResponder.address_valid _ h.typed (by decide)
          | reverse _ _ => exact NamedResponder.reverse_valid _ (by decide)
        · cases hs
    have hheads : plan.Heads (replyHeader rx (h.wire.responses asked).1.length) := by
      refine ⟨rfl, rfl, ?_, rfl⟩
      show min ((h.wire.responses asked).1.length % 65536) 32 = ((h.wire.responses asked).1.map Entry.proposed).length
      rw [length_map]
      omega
    have hbody : plan.body = ((h.wire.responses asked).1.map Entry.proposed).flatMap Entry.bytes := by
      simp [plan, Plan.body]
    rw [← hbody] at hm
    refine Plan.claims hvalid hheads hm ?_ rfl (List.mem_map_of_mem (mem_responses.mpr ⟨_, hmem, .inl hdue⟩))
    rw [hm.cur, hbody]
    exact hroom

end sent

end Mdns
