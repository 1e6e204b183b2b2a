import Mdns.Lib.Broadcast
import Mdns.Network.Host

/-!
# Names are unique

Hosts of one domain that hear each other's packets before their next timeouts. The comparison of
simultaneous probes is not needed for two hosts never to be ready with one name, and packets of
others do no harm.
-/
namespace Mdns
open Lib Option

section states
variable {r r' : Responder} {f : Labels}

def Responder.Ready (r : Responder) : Prop := r.running = true ∧ (r.state = .readyToRespond ∨ r.state = .readyToSend)

def Responder.Probing (r : Responder) : Prop :=
  r.running = true ∧ (r.state = .firstProbeSent ∨ r.state = .secondProbeSent ∨ r.state = .thirdProbeSent)

def Responder.Owns (r : Responder) (f : Labels) : Prop := r.Ready ∧ plainLabels r.fqdn = f

def Responder.Seeks (r : Responder) (f : Labels) : Prop := r.Probing ∧ plainLabels r.fqdn = f

/-- The names, the state and whether the thread runs are as they were. -/
structure Still (r r' : Responder) : Prop where
  card : r'.card = r.card
  state : r'.state = r.state
  running : r'.running = r.running

theorem fqdn_of_card (h : r'.card = r.card) : r'.fqdn = r.fqdn := congrArg (fun c => c.2.2.2.2.2) h

theorem Still.trans {r'' : Responder} (h : Still r r') (h' : Still r' r'') : Still r r'' :=
  ⟨h'.card.trans h.card, h'.state.trans h.state, h'.running.trans h.running⟩

theorem Still.owns (h : Still r r') : r'.Owns f ↔ r.Owns f := by
  unfold Responder.Owns Responder.Ready
  rw [h.state, h.running, fqdn_of_card h.card]

theorem Still.seeks (h : Still r r') : r'.Seeks f ↔ r.Seeks f := by
  unfold Responder.Seeks Responder.Probing
  rw [h.state, h.running, fqdn_of_card h.card]

theorem not_owns_of_init (h : r.state = .init) : ¬ r.Owns f := by
  rintro ⟨⟨-, hstate | hstate⟩, -⟩
  · cases h.symm.trans hstate
  · cases h.symm.trans hstate

theorem not_seeks_of_init (h : r.state = .init) : ¬ r.Seeks f := by
  rintro ⟨⟨-, hstate | hstate | hstate⟩, -⟩
  · cases h.symm.trans hstate
  · cases h.symm.trans hstate
  · cases h.symm.trans hstate

theorem not_seeks_of_ready (h : r.state = .readyToRespond ∨ r.state = .readyToSend) : ¬ r.Seeks f := by
  rintro ⟨⟨-, hprobing⟩, -⟩
  rcases h with h | h <;> rw [h] at hprobing <;> rcases hprobing with hp | hp | hp <;> cases hp

theorem not_owns_of_probing
    (h : r.state = .firstProbeSent ∨ r.state = .secondProbeSent ∨ r.state = .thirdProbeSent) : ¬ r.Owns f := by
  rintro ⟨⟨-, hready⟩, -⟩
  rcases h with h | h | h <;> rw [h] at hready <;> rcases hready with hr | hr <;> cases hr

end states

section rounds
variable {fuel : Nat} {r r' : Responder} {w : Wait} {out : List Packet}

def Wait.event (w : Wait) : Trigger Datagram :=
  if w.ctrl.map Ctrl.msg = some ctrlHalt then .other
  else match w.arrival with
    | .nothing => .timeout
    | .failed => .other
    | .packet d => .recv d

/-- What a round is: the thread has ended or ends, nothing is done, or one of the two events of the
state machine is. -/
inductive RoundOf (fuel : Nat) (r : Responder) (w : Wait) : Responder → List Packet → Prop where
  | stopped {r' : Responder} {out : List Packet} (hcard : r'.card = r.card)
      (hrun : r'.running = false) : RoundOf fuel r w r' out
  | failed {r' : Responder} (hevent : w.event = .other) (hstill : Still r r') : RoundOf fuel r w r' []
  | dropped {r' r1 : Responder} {d : Datagram} (hevent : w.event = .recv d) (hparse : r1.parse fuel d = .error .err)
      (hstill : Still r r') : RoundOf fuel r w r' []
  | timeout {r0 r' : Responder} {out : List Packet} (hevent : w.event = .timeout) (hstill : Still r r0)
      (hround : onTimeout fuel r0 = some (r', out)) : RoundOf fuel r w r' out
  | rx {r0 r1 r' : Responder} {d : Datagram} {m : Message} {out : List Packet}
      (hevent : w.event = .recv d) (hstill : Still r r0)
      (haddr : r0.fromAddr = d.addr) (hparse : r1.parse fuel d = .ok m) (hround : onRx fuel r0 m w = some (r', out)) :
      RoundOf fuel r w r' out

theorem still_hears (r : Responder) (w : Wait) : Still r ((r.waits w).hears w.ctrl) := by
  unfold Responder.waits Responder.hears
  split <;> split <;> exact ⟨rfl, rfl, rfl⟩

theorem onHalt_card (r : Responder) : (onHalt r).1.card = r.card ∧ (onHalt r).1.running = false := ⟨rfl, rfl⟩

theorem responderRound_roundOf (h : responderRound fuel r w = some (r', out)) : RoundOf fuel r w r' out := by
  have hhears := still_hears r w
  unfold responderRound at h
  split at h
  · next hrun =>
    cases h
    exact .stopped rfl (by simpa using hrun)
  · dsimp only at h
    split at h
    · cases h
      exact .stopped ((onHalt_card _).1.trans hhears.card) (onHalt_card _).2
    · next hctrl =>
      have hevent : w.event = match w.arrival with
          | .nothing => .timeout
          | .failed => .other
          | .packet d => .recv d := if_neg hctrl
      cases harr : w.arrival with
      | nothing =>
        rw [harr] at h hevent
        exact .timeout hevent hhears h
      | failed =>
        rw [harr] at h hevent
        cases h
        exact .failed hevent hhears
      | packet d =>
        rw [harr] at h hevent
        obtain ⟨⟨r1, rx⟩, hrecv, h⟩ := bind_eq_some_iff.mp h
        obtain ⟨buf, hr1, hcases⟩ := recvPacket_cases hrecv
        have hstill : Still r r1 := hhears.trans (by rw [hr1]; exact ⟨rfl, rfl, rfl⟩)
        rcases hcases with ⟨m, hparse, rfl⟩ | ⟨hparse, rfl⟩
        · exact .rx hevent hstill (by rw [hr1]) hparse h
        · cases h
          exact .dropped hevent hparse hstill

theorem RoundOf.recv {d : Datagram} {P : Message → Prop} (h : RoundOf fuel r w r' out)
    (hevent : w.event = .recv d) (hd : d.Reads P) :
    r'.running = false ∨ ∃ r0 m, Still r r0 ∧ r0.fromAddr = d.addr ∧ P m ∧ onRx fuel r0 m w = some (r', out) := by
  cases h with
  | stopped _ hrun => exact .inl hrun
  | failed hother _ => cases hother.symm.trans hevent
  | dropped hrecv hparse _ =>
    cases hrecv.symm.trans hevent
    obtain ⟨m, hm, -⟩ := hd.parse (by decide) hparse
    cases hm
  | timeout htimeout _ _ => cases htimeout.symm.trans hevent
  | rx hrecv hstill haddr hparse hround =>
    cases hrecv.symm.trans hevent
    obtain ⟨m, hm, hP⟩ := hd.parse (fun heq => by cases heq) hparse
    cases hm
    exact .inr ⟨_, _, hstill, haddr, hP, hround⟩

end rounds

section events
variable {domain : CString} {ipaddr addr fuel : Nat} {r r' : Responder} {m : Message} {w : Wait}
  {out : List Packet} {f : Labels}

/-- A packet in a probe state leaves things as they are if it is the host's own or no conflict, and
else leads back to INIT. -/
theorem Lone.probeStateRx (h : Lone domain ipaddr r) (hround : probeStateRx fuel r m w = some r') :
    Lone domain ipaddr r' ∧ (r'.state = .init ∨ (Still r r' ∧
      (r.fromAddr ≠ r.myIpaddr → ∃ r1, Mdns.fixResponseConflicts fuel r m r.tx = some (r1, 0)))) := by
  unfold Mdns.probeStateRx at hround
  split at hround
  · obtain ⟨r2, hproc, hround⟩ := bind_eq_some_iff.mp hround
    obtain ⟨⟨r1, ret⟩, hfix, hproc⟩ := bind_eq_some_iff.mp hproc
    obtain ⟨h1, hcases⟩ := h.fixResponseConflicts hfix
    simp only [pure, some.injEq] at hproc hround
    subst hround
    rcases hcases with ⟨rfl, rfl⟩ | rfl | rfl
    · subst hproc
      exact ⟨h1.of_card rfl, .inr ⟨⟨rfl, rfl, rfl⟩, fun _ => ⟨_, hfix⟩⟩⟩
    · subst hproc
      exact ⟨h1.of_card rfl, .inl rfl⟩
    · subst hproc
      exact ⟨h1.of_card rfl, .inl rfl⟩
  · next haddr =>
    cases hround
    exact ⟨h.of_card rfl, .inr ⟨⟨rfl, rfl, rfl⟩, fun hne => absurd hne haddr⟩⟩

inductive Received (fuel : Nat) (m : Message) (r : Responder) : Responder → List Packet → Prop where
  | still {r' : Responder} (hidle : r.state ≠ .readyToRespond ∧ r.state ≠ .readyToSend) (hstill : Still r r')
      (hnone : r.Probing → r.fromAddr ≠ r.myIpaddr → ∃ r1,
        fixResponseConflicts fuel r m r.tx = some (r1, 0)) : Received fuel m r r' []
  | yields {r' : Responder} (hinit : r'.state = .init) : Received fuel m r r' []
  | answers {r' : Responder} {out : List Packet} {tx : Message} {ret : Int} (hcard : r'.card = r.card)
      (hrun : r'.running = r.running) (hready : r.state = .readyToRespond ∨ r.state = .readyToSend)
      (hready' : r'.state = .readyToRespond ∨ r'.state = .readyToSend)
        (hprep : prepareResponse fuel r m r.tx = some (tx, ret))
      (hsent : ret = 1 → mdnsSendMsg tx r.fromPort ∈ out) : Received fuel m r r' out

theorem onRx_ready (hs : r.state = .readyToRespond ∨ r.state = .readyToSend)
    (hround : onRx fuel r m w = some (r', out)) :
    ∃ tx ret, prepareResponse fuel r m r.tx = some (tx, ret) ∧ r'.card = r.card ∧ r'.running = r.running ∧
      (r'.state = .readyToRespond ∨ r'.state = .readyToSend) ∧ (ret = 1 → mdnsSendMsg tx r.fromPort ∈ out) := by
  unfold onRx at hround
  rcases hs with hs | hs <;>
  · rw [hs] at hround
    obtain ⟨⟨tx, ret⟩, hprep, hround⟩ := bind_eq_some_iff.mp hround
    refine ⟨tx, ret, hprep, ?_⟩
    simp only [pure, some.injEq] at hround
    split at hround
    · next hret =>
      cases hround
      exact ⟨rfl, rfl, by simp, fun h1 => absurd (h1 ▸ hret) (by decide)⟩
    · split at hround
      · next hret =>
        cases hround
        exact ⟨rfl, rfl, .inr rfl, fun h1 => absurd (h1 ▸ hret) (by decide)⟩
      · cases hround
        exact ⟨rfl, rfl, by simp, fun _ => by simp⟩

theorem Lone.onRx_received (h : Lone domain ipaddr r) (hround : onRx fuel r m w = some (r', out)) :
    Lone domain ipaddr r' ∧ Received fuel m r r' out := by
  by_cases hready : r.state = .readyToRespond ∨ r.state = .readyToSend
  · obtain ⟨tx, ret, hprep, hcard, hrun, hready', hsent⟩ := onRx_ready hready hround
    exact ⟨h.of_card hcard, .answers hcard hrun hready hready' hprep hsent⟩
  have hidle := not_or.mp hready
  by_cases hs : r.state = .init
  · unfold onRx at hround
    rw [hs] at hround
    cases hround
    refine ⟨h.of_card rfl, .still hidle ⟨rfl, hs.symm, rfl⟩ ?_⟩
    rintro ⟨-, hp | hp | hp⟩ <;> cases hs.symm.trans hp
  have hprobe : (Mdns.probeStateRx fuel r m w >>= fun r => pure (r, ([] : List Packet))) = some (r', out) := by
    unfold onRx at hround
    split at hround <;> simp_all
  obtain ⟨r1, hr1, heq⟩ := bind_eq_some_iff.mp hprobe
  cases heq
  obtain ⟨h', hinit | ⟨hstill, hnone⟩⟩ := h.probeStateRx hr1
  · exact ⟨h', .yields hinit⟩
  · exact ⟨h', .still hidle hstill (fun _ => hnone)⟩

/-- A timeout sends the first probe, goes on to the next one, announces the name, or leaves the host
as it is. -/
theorem Lone.onTimeout_spec (h : Lone domain ipaddr r) (hround : onTimeout fuel r = some (r', out))
    (addr : Nat) (f : Labels) :
    Lone domain ipaddr r' ∧
    (r'.Owns f → r.Owns f ∨ (r.Seeks f ∧ ∃ p ∈ out, (p.datagram addr).Claims f)) ∧
    (r'.Seeks f → r.Seeks f ∨ ∃ p ∈ out, (p.datagram addr).Asks f) := by
  unfold onTimeout at hround
  cases hs : r.state with
  | init =>
    rw [hs] at hround
    obtain ⟨⟨tx, ret⟩, hprobe, hround⟩ := bind_eq_some_iff.mp hround
    cases hround
    refine ⟨h.of_card rfl, fun hown => absurd hown (not_owns_of_probing (.inl rfl)), ?_⟩
    rintro ⟨-, hname⟩
    exact .inr ⟨_, .head _, hname ▸ h.probe_asks hprobe⟩
  | firstProbeSent =>
    rw [hs] at hround
    cases hround
    refine ⟨h.of_card rfl, fun hown => absurd hown (not_owns_of_probing (.inr (.inl rfl))), ?_⟩
    rintro ⟨⟨hrun, -⟩, hname⟩
    exact .inl ⟨⟨hrun, .inl hs⟩, hname⟩
  | secondProbeSent =>
    rw [hs] at hround
    cases hround
    refine ⟨h.of_card rfl, fun hown => absurd hown (not_owns_of_probing (.inr (.inr rfl))), ?_⟩
    rintro ⟨⟨hrun, -⟩, hname⟩
    exact .inl ⟨⟨hrun, .inr (.inl hs)⟩, hname⟩
  | thirdProbeSent =>
    rw [hs] at hround
    cases hann : prepareAnnouncement r r.tx 255 with
    | mk tx ret =>
      simp only [hann, some.injEq] at hround
      split at hround
      · cases hround
        refine ⟨h.of_card rfl, fun hown => absurd hown (not_owns_of_probing (.inr (.inr rfl))), ?_⟩
        rintro ⟨⟨hrun, -⟩, hname⟩
        exact .inl ⟨⟨hrun, .inr (.inr hs)⟩, hname⟩
      · next hret =>
        cases hround
        obtain rfl : ret = 0 := not_not.mp hret
        refine ⟨h.of_card rfl, ?_, fun hseek => absurd hseek (not_seeks_of_ready (.inl rfl))⟩
        rintro ⟨⟨hrun, -⟩, hname⟩
        exact .inr ⟨⟨⟨hrun, .inr (.inr hs)⟩, hname⟩, _, .head _, hname ▸ h.announcement_claims hann⟩
  | readyToRespond =>
    rw [hs] at hround
    cases hround
    exact ⟨h, .inl, .inl⟩
  | readyToSend =>
    rw [hs] at hround
    cases hround
    refine ⟨h.of_card rfl, ?_, fun hseek => absurd hseek (not_seeks_of_ready (.inl rfl))⟩
    rintro ⟨⟨hrun, -⟩, hname⟩
    exact .inl ⟨⟨hrun, .inr hs⟩, hname⟩

theorem Received.owns (h : Received fuel m r r' out) (hown : r'.Owns f) : r.Owns f := by
  cases h with
  | still _ hstill _ => exact hstill.owns.mp hown
  | yields hinit => exact absurd hown (not_owns_of_init hinit)
  | answers hcard hrun hready _ _ _ =>
    obtain ⟨⟨hrun', -⟩, hname⟩ := hown
    exact ⟨⟨hrun ▸ hrun', hready⟩, fqdn_of_card hcard ▸ hname⟩

theorem Received.seeks (h : Received fuel m r r' out) (hseek : r'.Seeks f) : r.Seeks f := by
  cases h with
  | still _ hstill _ => exact hstill.seeks.mp hseek
  | yields hinit => exact absurd hseek (not_seeks_of_init hinit)
  | answers _ _ _ hready' _ _ => exact absurd hseek (not_seeks_of_ready hready')

theorem Received.answered (h : Received fuel m r r' out) (hlone : Lone domain ipaddr r)
    (hown : r'.Owns f) (hqr : m.qr = false)
    {asked : List (Labels × Nat)} (hasked : List.Forall₂ (Mdns.Asks m) m.questions asked) (hfew : asked.length ≤ 2)
    (hmem : (f, tAny) ∈ asked) : ∃ p ∈ out, (p.datagram addr).Claims f := by
  have hold := h.owns hown
  cases h with
  | still hidle _ _ =>
    rcases hold.1.2 with hs | hs
    · exact absurd hs hidle.1
    · exact absurd hs hidle.2
  | yields hinit => exact absurd hown (not_owns_of_init hinit)
  | answers _ _ _ _ hprep hsent =>
    obtain ⟨-, rfl⟩ := hold
    obtain ⟨hret, hclaims⟩ := hlone.reply_claims hqr hasked hfew hmem hprep
    exact ⟨_, hsent hret, hclaims⟩

theorem Received.yielded (h : Received fuel m r r' out) (hlone : Lone domain ipaddr r)
    (haddr : r.fromAddr ≠ ipaddr) (hqr : m.qr = true)
    {a : Resource} (ha : a ∈ m.answers) (htype : a.type = tA)
    (hname : Expands (.packet m.data) a.name f) : ¬ r'.Seeks f := by
  intro hseek
  obtain ⟨hprobing, rfl⟩ := h.seeks hseek
  cases h with
  | still _ _ hnone =>
    obtain ⟨r1, hfix⟩ := hnone hprobing (hlone.myIpaddr ▸ haddr)
    unfold fixResponseConflicts at hfix
    rw [hqr] at hfix
    have hret := hlone.conflict_of_answer ha htype hname hfix
    simp at hret
  | yields hinit => exact not_seeks_of_init hinit hseek
  | answers _ _ _ hready' _ _ => exact not_seeks_of_ready hready' hseek

end events

section network
variable {ι : Type} {domain : CString} {ip : ι → Nat} {i j : ι} {packets : List Packet}

/-- The hosts of a network with their addresses. A round is given its fuel and what `select` waits
for, and its packets go out from the address of the host. -/
def hosts (ip : ι → Nat) : Protocol ι Responder Datagram (Nat × Wait) where
  event := fun a => a.2.event
  round := fun i r a => (responderRound a.1 r a.2).map (fun x => (x.1, x.2.map (Packet.datagram (ip i))))

theorem hosts_round {r r' : Responder} {a : Nat × Wait} {out : List Datagram}
    (h : (hosts ip).round i r a = some (r', out)) :
    ∃ packets, RoundOf a.1 r a.2 r' packets ∧ out = packets.map (Packet.datagram (ip i)) := by
  obtain ⟨⟨r1, packets⟩, hround, heq⟩ := map_eq_some_iff.mp h
  cases heq
  exact ⟨packets, responderRound_roundOf hround, rfl⟩

theorem exists_mem_datagrams {addr : Nat} {P : Datagram → Prop} (h : ∃ p ∈ packets, P (p.datagram addr)) :
    ∃ d ∈ packets.map (Packet.datagram addr), P d := by
  obtain ⟨p, hp, hP⟩ := h
  exact ⟨_, List.mem_map_of_mem hp, hP⟩

def ClaimsTo (ip : ι → Nat) (i : ι) (d : Datagram) (f : Labels) : Prop := d.addr ≠ ip i ∧ d.Claims f

theorem claimsTo_of_sent {f : Labels} (hip : Function.Injective ip) (hji : j ≠ i)
    (h : ∃ p ∈ packets, (p.datagram (ip i)).Claims f) :
    ∃ d ∈ packets.map (Packet.datagram (ip i)), ClaimsTo ip j d f := by
  obtain ⟨p, hp, hclaims⟩ := h
  exact ⟨_, List.mem_map_of_mem hp, fun heq => hji (hip heq).symm, hclaims⟩

theorem hosts_defend (hip : Function.Injective ip) :
    Defends (hosts ip) (fun i => Lone domain (ip i)) Responder.Owns Responder.Seeks Datagram.Asks (ClaimsTo ip) where
  keeps := by
    intro i r a r' out hok h
    obtain ⟨packets, hround, -⟩ := hosts_round h
    cases hround with
    | stopped hcard _ => exact hok.of_card hcard
    | failed _ hstill => exact hok.of_card hstill.card
    | dropped _ _ hstill => exact hok.of_card hstill.card
    | timeout _ hstill hround => exact ((hok.of_card hstill.card).onTimeout_spec hround 0 []).1
    | rx _ hstill _ _ hround => exact ((hok.of_card hstill.card).onRx_received hround).1
  owned := by
    intro i r a r' out f hok h hown
    obtain ⟨packets, hround, rfl⟩ := hosts_round h
    cases hround with
    | stopped _ hrun => cases hrun.symm.trans hown.1.1
    | failed _ hstill => exact .inl (hstill.owns.mp hown)
    | dropped _ _ hstill => exact .inl (hstill.owns.mp hown)
    | timeout hevent hstill hround =>
      rcases ((hok.of_card hstill.card).onTimeout_spec hround (ip i) f).2.1 hown with hold | ⟨hseek, hclaims⟩
      · exact .inl (hstill.owns.mp hold)
      · exact .inr ⟨hevent, hstill.seeks.mp hseek, fun j hj => claimsTo_of_sent hip hj hclaims⟩
    | rx _ hstill _ _ hround =>
      exact .inl (hstill.owns.mp (((hok.of_card hstill.card).onRx_received hround).2.owns hown))
  sought := by
    intro i r a r' out f hok h hseek
    obtain ⟨packets, hround, rfl⟩ := hosts_round h
    cases hround with
    | stopped _ hrun => cases hrun.symm.trans hseek.1.1
    | failed _ hstill => exact .inl (hstill.seeks.mp hseek)
    | dropped _ _ hstill => exact .inl (hstill.seeks.mp hseek)
    | timeout hevent hstill hround =>
      rcases ((hok.of_card hstill.card).onTimeout_spec hround (ip i) f).2.2 hseek with hold | hasks
      · exact .inl (hstill.seeks.mp hold)
      · exact .inr ⟨hevent, exists_mem_datagrams hasks⟩
    | rx _ hstill _ _ hround =>
      exact .inl (hstill.seeks.mp (((hok.of_card hstill.card).onRx_received hround).2.seeks hseek))
  answers := by
    intro i r a r' out f d hok h hevent hasks hown j hj
    obtain ⟨packets, hround, rfl⟩ := hosts_round h
    rcases hround.recv hevent hasks with hrun | ⟨r0, m, hstill, -, ⟨hqr, asked, hforall, hfew, hmem⟩, hrx⟩
    · cases hrun.symm.trans hown.1.1
    · have hlone := hok.of_card hstill.card
      exact claimsTo_of_sent hip hj ((hlone.onRx_received hrx).2.answered hlone hown hqr hforall hfew hmem)
  yields := by
    intro i r a r' out f d hok h hevent hclaims hseek
    obtain ⟨packets, hround, rfl⟩ := hosts_round h
    rcases hround.recv hevent hclaims.2 with hrun | ⟨r0, m, hstill, haddr, ⟨hqr, x, hx, htype, hname⟩, hrx⟩
    · cases hrun.symm.trans hseek.1.1
    · have hlone := hok.of_card hstill.card
      exact (hlone.onRx_received hrx).2.yielded hlone (haddr ▸ hclaims.1) hqr hx htype hname hseek

variable [DecidableEq ι] [Fintype ι]

/-- Hosts of one domain with addresses of their own that have been launched without services. -/
structure Launch (domain : CString) (hostname : ι → CString) (ip : ι → Nat) (r : ι → Responder) : Prop where
  addresses : Function.Injective ip
  small : ∀ i, ip i < 4294967296
  names : ∀ i, 1 ≤ (hostname i).1.length ∧ (hostname i).1.length ≤ 61
  launched : ∀ i, ∃ fuel fqdn tx rx, fqdn.length = maxNameLen + 1 ∧
    responderLaunch fuel (ip i) domain (hostname i) [] fqdn tx rx = some (.ok (r i))

def startNet (r : ι → Responder) (rand : ι → Nat) : Net ι Responder Datagram where
  node := fun i => startResponder (r i) (rand i)
  inbox := fun _ => []

/-- In every run no two hosts are ready with one name. -/
theorem ready_names_differ {hostname : ι → CString} {r : ι → Responder}
    (hl : Launch domain hostname ip r) (rand : ι → Nat)
    {moves : List (NetMove ι Datagram (Nat × Wait))} {net : Net ι Responder Datagram}
    (hrun : runAll (hosts ip).fire moves (startNet r rand) = some net) (hij : i ≠ j)
    (hi : (net.node i).Ready) (hj : (net.node j).Ready) :
    plainLabels (net.node i).fqdn ≠ plainLabels (net.node j).fqdn := by
  have hstart : ∀ i, Lone domain (ip i) ((startNet r rand).node i) := by
    intro i
    obtain ⟨fuel, fqdn, tx, rx, hbuf, hlaunch⟩ := hl.launched i
    exact lone_launch hlaunch (hl.names i) (hl.small i) hbuf
  have hexclusive := (hosts_defend hl.addresses).exclusive hrun hstart (fun i f => not_owns_of_init rfl)
  intro heq
  exact hexclusive.single hij ⟨hi, rfl⟩ ⟨hj, heq.symm⟩

/-- The host takes the first packet that has come for it, or else its timeout. -/
def nextMove (net : Net ι Responder Datagram) (i : ι) : NetMove ι Datagram (Nat × Wait) :=
  match net.inbox i with
  | [] => .round i (60, { start := 0, waited := 0 })
  | d :: _ => .round i (60, { start := 0, waited := 0, arrival := .packet d })

end network

section two

def twoAddresses (i : Bool) : Nat := if i then 3232235777 else 3232235778

/-- The launch of a host `foo.local` at one of the two addresses. -/
def launchFoo (i : Bool) : Option (Except LaunchError Responder) :=
  responderLaunch 60 (twoAddresses i) localDomain fooName [] (List.replicate 256 0)
    { data := [], mend := 0, cur := 0 } { data := [], mend := 0, cur := 0 }

def runTwo (turns : List Bool) : Option (Net Bool Responder Datagram) :=
  match launchFoo true, launchFoo false with
  | some (.ok a), some (.ok b) =>
    runAll (fun net i => (hosts twoAddresses).fire net (nextMove net i)) turns
      (startNet (fun i => if i then a else b) (fun _ => 0))
  | _, _ => none

/-- One host probes and announces its name while the other waits. Then the other one probes, gets its
answer, and probes for another name. -/
def twoTurns : List Bool :=
  [true, false, true, false, true, false, true, false, false, true, false, false, true, false, true,
    false, true, false, true]

set_option maxRecDepth 20000 in
theorem ready_names_differ_two :
    ∃ (r : Bool → Responder) (moves : List (NetMove Bool Datagram (Nat × Wait))) (net : Net Bool Responder Datagram),
    Launch localDomain (fun _ => fooName) twoAddresses r ∧
      runAll (hosts twoAddresses).fire moves (startNet r (fun _ => 0)) = some net ∧
        (net.node true).Ready ∧ (net.node false).Ready ∧
      plainLabels (net.node true).fqdn ≠ plainLabels (net.node false).fqdn := by
  have hrun : (runTwo twoTurns).any (fun net =>
    decide ((net.node true).running ∧ (net.node true).state = .readyToRespond ∧
      (net.node false).running ∧ (net.node false).state = .readyToRespond)) = true := by decide +kernel
  obtain ⟨net, hnet, htest⟩ := (Option.any_eq_true _ _).mp hrun
  obtain ⟨hrunA, hstateA, hrunB, hstateB⟩ := of_decide_eq_true htest
  unfold runTwo at hnet
  split at hnet
  · next a b ha hb =>
    obtain ⟨moves, hmoves⟩ := exists_runAll_of_chosen hnet
    have hl : Launch localDomain (fun _ => fooName) twoAddresses (fun i => if i then a else b) := by
      refine ⟨by decide, by decide, fun _ => by decide, ?_⟩
      intro i
      cases i with
      | true => exact ⟨_, _, _, _, List.length_replicate, ha⟩
      | false => exact ⟨_, _, _, _, List.length_replicate, hb⟩
    have hA : (net.node true).Ready := ⟨hrunA, .inl hstateA⟩
    have hB : (net.node false).Ready := ⟨hrunB, .inl hstateB⟩
    exact ⟨_, moves, net, hl, hmoves, hA, hB, ready_names_differ hl _ hmoves (by decide) hA hB⟩
  · cases hnet

end two

end Mdns
