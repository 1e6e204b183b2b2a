import Mdns.Lib.Broadcast
import Mdns.LinkLocal

/-!
# Link-local addresses

The handler of ARP packets only notes a conflict, and the thread takes it up when it waits the next
time. So no two hosts hold one address unless one of them has a conflict to take up.
-/
namespace Mdns.LinkLocal
open Lib List

section progress
variable {s s' : Ll} {r : Round} {rounds : List Round}

def InRange (ip : Nat) : Prop := ∃ low ≤ 255, ∃ mid ≤ 254, 1 ≤ mid ∧ ip = low * 2 ^ 24 + (mid * 2 ^ 16 + 0xFEA9)

theorem inRange_llRandomIp (r : Round) : InRange (llRandomIp r) := by
  have hlow : sysRandom 0 255 r.low ≤ 255 := by unfold sysRandom; omega
  have hmid : sysRandom 1 254 r.mid ≤ 254 := by unfold sysRandom; omega
  refine ⟨_, hlow, _, hmid, Nat.le_add_right 1 _, ?_⟩
  have hnet : 254 <<< 8 ||| 169 = 0xFEA9 := by decide
  unfold llRandomIp
  rw [Nat.or_assoc, Nat.or_assoc, hnet, ← Nat.shiftLeft_add_eq_or_of_lt (show 0xFEA9 < 2 ^ 16 by decide),
    ← Nat.shiftLeft_add_eq_or_of_lt (by rw [Nat.shiftLeft_eq]; omega), Nat.shiftLeft_eq, Nat.shiftLeft_eq]

/-- What holds between two rounds: the counts are below their limits, and there is a candidate. -/
structure Ll.Sane (s : Ll) : Prop where
  probe : s.probe < probeNum
  announce : s.state = .announce → s.announce < announceNum
  candidate : s.state = .probe ∨ s.state = .announce ∨ s.state = .stable → InRange s.candidateIp

/-- The rounds that are left until the address is used, if there is no conflict. -/
def Ll.left (s : Ll) : Nat :=
  match s.state with
  | .noAddress => 6
  | .rateLimitedProbe => 6 - s.probe
  | .probe => 5 - s.probe
  | .announce => 2 - s.announce
  | .stable => 0

def Ll.InUse (s : Ll) : Prop := s.state = .stable ∧ s.trace.head? = some (.tcpipInit s.candidateIp)

/-- A conflict ends in no address, or in a new one for a thread that had none. -/
theorem conflict_cases (h : llRound s r = some s') (hc : r.conflict = true) :
    (s'.state = .probe ∧ s'.probe = 0 ∧ s'.candidateIp = llRandomIp r ∧
      s'.trace.head? = some (.chosen (llRandomIp r))) ∨
      ((s'.state = .noAddress ∨ s'.state = .rateLimitedProbe) ∧ s'.probe = s.probe) := by
  unfold llRound at h
  split_ifs at h
  cases h
  rw [notice_of_conflict hc]
  cases hstate : s.state with
  | noAddress => exact .inl ⟨rfl, rfl, rfl, rfl⟩
  | probe =>
    simp only [probeOnce, hc, true_and, if_true]
    split_ifs
    · exact .inr ⟨.inr rfl, rfl⟩
    · exact .inr ⟨.inl rfl, rfl⟩
  | announce =>
    simp only [announceOnce, hc, true_and, if_true]
    split_ifs
    · exact .inr ⟨.inr rfl, rfl⟩
    · exact .inr ⟨.inl rfl, rfl⟩
  | rateLimitedProbe =>
    rw [probeSlowly, if_pos hc]
    exact .inr ⟨.inr rfl, rfl⟩
  | stable =>
    simp only [useAddress, hc, if_true]
    exact .inr ⟨.inl rfl, rfl⟩

theorem sane_of_conflict (h : llRound s r = some s') (hc : r.conflict = true) (hs : s.Sane) : s'.Sane := by
  rcases conflict_cases h hc with ⟨hstate, hprobe, hip, -⟩ | ⟨hstate, hprobe⟩
  · refine ⟨by rw [hprobe]; decide, fun h => ?_, fun _ => hip ▸ inRange_llRandomIp r⟩
    rw [hstate] at h
    cases h
  · refine ⟨by rw [hprobe]; exact hs.probe, fun h => ?_, fun h => ?_⟩
    · rcases hstate with hstate | hstate <;> rw [hstate] at h <;> cases h
    · rcases hstate with hstate | hstate <;> rw [hstate] at h <;> simp at h

theorem sane_of_quiet (hs : s.Sane) (hc : r.conflict = false) (hok : r.status ≠ .failed) :
    ∃ s', llRound s r = some s' ∧ s'.Sane ∧ (s'.left + 1 = s.left ∨ s'.InUse) := by
  have hnew := inRange_llRandomIp r
  have hprobe : s.probe < 3 := hs.probe
  refine ⟨_, if_neg hok, ?_⟩
  rw [notice_of_no_conflict hc]
  cases hstate : s.state with
  | noAddress =>
    exact ⟨⟨Nat.succ_pos 2, (fun h => by cases h), fun _ => hnew⟩, .inl (by simp only [Ll.left, hstate, takeAddress])⟩
  | probe =>
    have hip := hs.candidate (.inl hstate)
    simp only [probeOnce, hc, Bool.false_eq_true, false_and, if_false]
    split_ifs with hlast hmore
    · refine ⟨⟨hs.probe, fun _ => Nat.succ_pos 1, fun _ => hip⟩, .inl ?_⟩
      simp only [Ll.left, hstate, hlast, probeNum]
    · refine ⟨⟨Nat.add_lt_of_lt_sub hmore, hs.announce, fun _ => hip⟩, .inl ?_⟩
      simp only [Ll.left, Ll.act, hstate]
      omega
    · unfold probeNum at hlast hmore
      omega
  | announce =>
    have hip := hs.candidate (.inr (.inl hstate))
    have hannounce : s.announce < 2 := hs.announce hstate
    simp only [announceOnce, hc, Bool.false_eq_true, false_and, if_false]
    split_ifs with hlast hmore
    · refine ⟨⟨hs.probe, (fun h => by cases h), fun _ => hip⟩, .inl ?_⟩
      simp only [Ll.left, hstate, hlast, announceNum]
    · refine ⟨⟨hs.probe, fun _ => Nat.add_lt_of_lt_sub hmore, fun _ => hip⟩, .inl ?_⟩
      simp only [Ll.left, Ll.act, hstate]
      omega
    · unfold announceNum at hlast hmore
      omega
  | rateLimitedProbe =>
    simp only [probeSlowly, hc, Bool.false_eq_true, if_false]
    refine ⟨⟨hs.probe, (fun h => by cases h), fun _ => hnew⟩, .inl ?_⟩
    simp only [Ll.left, Ll.choose, Ll.act, hstate]
    omega
  | stable =>
    simp only [useAddress, hc, Bool.false_eq_true, if_false]
    exact ⟨⟨hs.probe, hs.announce, hs.candidate⟩, .inr ⟨hstate, rfl⟩⟩

theorem llRound_sane (h : llRound s r = some s') (hs : s.Sane) : s'.Sane := by
  cases hc : r.conflict with
  | true => exact sane_of_conflict h hc hs
  | false =>
    obtain ⟨t, ht, hsane, -⟩ := sane_of_quiet hs hc (fun hfail => by simp [llRound, hfail] at h)
    cases h.symm.trans ht
    exact hsane

theorem Ll.Sane.uses (hs : s.Sane) (hquiet : ∀ r ∈ rounds, r.conflict = false ∧ r.status ≠ .failed)
    (hlong : s.left < rounds.length) :
    ∃ s', runAll llRound rounds s = some s' ∧ s'.Sane ∧ s'.InUse := by
  induction rounds generalizing s with
  | nil => exact absurd hlong (Nat.not_lt_zero _)
  | cons r rounds ih =>
    obtain ⟨hr, hquiet⟩ := forall_mem_cons.mp hquiet
    obtain ⟨s₁, hround, hs₁, hcases⟩ := sane_of_quiet hs hr.1 hr.2
    rw [length_cons] at hlong
    rw [runAll, hround]
    by_cases hmore : s₁.left < rounds.length
    · exact ih hs₁ hquiet hmore
    · have huse := hcases.resolve_left (by omega)
      have hzero : s₁.left = 0 := by simp only [Ll.left, huse.1]
      obtain rfl := eq_nil_of_length_eq_zero (show rounds.length = 0 by omega)
      exact ⟨s₁, rfl, hs₁, huse⟩

/-- Whatever has happened before, seven quiet rounds are enough for an address of the range to be used. -/
theorem address_used_after_quiet {before : List Round} {numConflicts : Nat}
    (hrun : runAll llRound before (llLaunch numConflicts) = some s)
    (hquiet : ∀ r ∈ rounds, r.conflict = false ∧ r.status ≠ .failed) (hlong : 7 ≤ rounds.length) :
    ∃ s', runAll llRound rounds s = some s' ∧ s'.InUse ∧ InRange s'.candidateIp := by
  have hs : s.Sane := runAll_keeps (fun _ _ _ hround h => llRound_sane hround h) hrun ⟨Nat.succ_pos 2,
    nofun, by simp [llLaunch]⟩
  have hleft : s.left ≤ 6 := by
    unfold Ll.left
    split <;> omega
  obtain ⟨s', hrest, hsane, huse⟩ := hs.uses hquiet (by omega)
  exact ⟨s', hrest, huse, hsane.candidate (.inr (.inr huse.1))⟩

/-- The tenth conflict does not prevent it. -/
theorem address_used_after_slow : ∃ s s', runAll llRound [quiet, clash] (llLaunch 9) = some s ∧
    runAll llRound (replicate 7 quiet) s = some s' ∧ s'.InUse ∧ InRange s'.candidateIp := by
  obtain ⟨s', h⟩ := address_used_after_quiet (show runAll llRound [quiet, clash] (llLaunch 9) = some _ from rfl)
    (show ∀ r ∈ replicate 7 quiet, r.conflict = false ∧ r.status ≠ .failed by decide) (by decide)
  exact ⟨_, s', rfl, h⟩

end progress

section packets

def arpType : Nat := 0x0806
def arpOpRequest : Nat := 1
def arpOpReply : Nat := 2

/-- `struct arp_pkt`. -/
structure Arp where
  hardType : Nat := 1
  protType : Nat := 0x0800
  hardSize : Nat := 6
  protSize : Nat := 4
  op : Nat
  senderMac : List UInt8
  senderIp : Nat
  targetMac : List UInt8
  targetIp : Nat
  deriving DecidableEq

structure Frame where
  type : Nat
  arp : Arp
  deriving DecidableEq

/-- `ll_arp_conflict`: somebody owns the address, or probes for it. The hardware address is not looked at. -/
def llArpConflict (arp : Arp) (ip : Nat) : Bool :=
  if arp.op ≠ arpOpReply ∧ arp.op ≠ arpOpRequest then false
  else if arp.senderIp = ip then true
  else decide (arp.senderIp = 0 ∧ arp.targetIp = ip)

def arpRequest (mac : List UInt8) (senderIp targetIp : Nat) : Frame :=
  ⟨arpType, { op := arpOpRequest, senderMac := mac, senderIp, targetMac := replicate 6 0, targetIp }⟩

def llSendProbe (mac : List UInt8) (ip : Nat) : Frame := arpRequest mac 0 ip
def llSendAnnounce (mac : List UInt8) (ip : Nat) : Frame := arpRequest mac ip ip

/-- The thread, and what it shares with the handler: `ll_running` and the event flag. -/
structure Station where
  ll : Ll
  mac : List UInt8
  running : Bool := true
  flag : Bool := false

/-- `ll_handle_arp`. -/
def llHandleArp (h : Station) (f : Frame) : Station :=
  if h.running ∧ f.type = arpType ∧ llArpConflict f.arp h.ll.candidateIp then { h with flag := true } else h

def Act.frame (mac : List UInt8) : Act → Option Frame
  | .sentProbe ip => some (llSendProbe mac ip)
  | .sentAnnounce ip => some (llSendAnnounce mac ip)
  | _ => none

def Station.sent (h : Station) (s : Ll) : List Frame :=
  (s.trace.take (s.trace.length - h.ll.trace.length)).filterMap (Act.frame h.mac)

/-- What happens to a host: a packet comes in, or its thread wakes up. -/
inductive Input where
  | frame (f : Frame)
  | wake (r : Round)

def Input.event : Input → Trigger Frame
  | .frame f => .recv f
  | .wake r => if r.conflict then .other else .timeout

/-- The handler, or a round of the thread. The wait returns a conflict exactly if one has been noted, and
then it is not noted any more. -/
def stationRound (h : Station) : Input → Option (Station × List Frame)
  | .frame f => some (llHandleArp h f, [])
  | .wake r =>
    if r.conflict = h.flag then (llRound h.ll r).map (fun s => ({ h with ll := s, flag := false }, h.sent s)) else none

def stations (ι : Type) : Protocol ι Station Frame Input where
  event := Input.event
  round := fun _ => stationRound

end packets

section rounds
variable {s s' : Ll} {r : Round} {ip : Nat} {h h' : Station} {out : List Frame}

def Ll.Holds (s : Ll) (ip : Nat) : Prop :=
  s.candidateIp = ip ∧ (s.state = .stable ∨ (s.state = .announce ∧ 0 < s.announce))

def Ll.Tries (s : Ll) (ip : Nat) : Prop :=
  s.candidateIp = ip ∧
    ((s.state = .probe ∧ s.trace.head? = some (.sentProbe ip)) ∨ (s.state = .announce ∧ s.announce = 0))

theorem llRound_of_conflict (h : llRound s r = some s') (hc : r.conflict = true) : ¬ s'.Holds ip ∧ ¬ s'.Tries ip := by
  rcases conflict_cases h hc with ⟨hstate, -, -, htrace⟩ | ⟨hstate, -⟩
  · simp [Ll.Holds, Ll.Tries, hstate, htrace]
  · rcases hstate with hstate | hstate <;> simp [Ll.Holds, Ll.Tries, hstate]

/-- Without one, an address that is held after a round was held before or is announced in it, and one that is
tried was tried before or is probed for in it. -/
theorem llRound_of_quiet (h : llRound s r = some s') (hc : r.conflict = false) (ip : Nat) :
    ∃ acts, s'.trace = acts ++ s.trace ∧
    (s'.Holds ip → s.Holds ip ∨ (s.Tries ip ∧ .sentAnnounce ip ∈ acts)) ∧
      (s'.Tries ip → s.Tries ip ∨ .sentProbe ip ∈ acts) := by
  unfold llRound at h
  split_ifs at h
  cases h
  rw [notice_of_no_conflict hc]
  cases hs : s.state with
  | noAddress => exact ⟨[_], rfl, by simp [Ll.Holds, takeAddress], by simp [Ll.Tries, takeAddress, Ll.choose, Ll.act]⟩
  | probe =>
    simp only [probeOnce, hc, Bool.false_eq_true, false_and, if_false]
    split_ifs
    · exact ⟨[_], rfl, by simp [Ll.Holds], fun hip => .inr (by simp [← hip.1, Ll.act])⟩
    · exact ⟨[_], rfl, by simp [Ll.Holds, Ll.act, hs], fun hip => .inr (by simp [← hip.1, Ll.act])⟩
    · exact ⟨[], rfl, .inl, .inl⟩
  | announce =>
    simp only [announceOnce, hc, Bool.false_eq_true, false_and, if_false]
    split_ifs with hlast hmore
    · exact ⟨[_], rfl, fun hip => .inl ⟨hip.1, .inr ⟨hs, by rw [hlast]; decide⟩⟩, by simp [Ll.Tries]⟩
    · refine ⟨[_], rfl, fun hip => .inr ⟨⟨hip.1, .inr ⟨hs, by unfold announceNum at hmore; omega⟩⟩,
        by simp [← hip.1, Ll.act]⟩, ?_⟩
      simp [Ll.Tries, Ll.act, hs]
    · exact ⟨[], rfl, .inl, .inl⟩
  | rateLimitedProbe =>
    simp only [probeSlowly, hc, Bool.false_eq_true, if_false]
    exact ⟨[_], rfl, by simp [Ll.Holds], by simp [Ll.Tries, Ll.choose, Ll.act]⟩
  | stable =>
    simp only [useAddress, hc, Bool.false_eq_true, if_false]
    exact ⟨[_], rfl, fun hip => .inl ⟨hip.1, .inl hs⟩, by simp [Ll.Tries, Ll.act, hs]⟩

/-- A host holds or tries an address as long as it has noted no conflict. -/
def Station.Owns (h : Station) (ip : Nat) : Prop := h.flag = false ∧ h.ll.Holds ip
def Station.Seeks (h : Station) (ip : Nat) : Prop := h.flag = false ∧ h.ll.Tries ip

def Probes (f : Frame) (ip : Nat) : Prop := ∃ mac, f = llSendProbe mac ip
def Announces (f : Frame) (ip : Nat) : Prop := ∃ mac, f = llSendAnnounce mac ip

theorem handleArp_spec (h : Station) (f : Frame) : (llHandleArp h f).ll = h.ll ∧ (llHandleArp h f).running = h.running ∧
    ((llHandleArp h f).flag = false → h.flag = false) := by
  unfold llHandleArp
  split
  · exact ⟨rfl, rfl, nofun⟩
  · exact ⟨rfl, rfl, id⟩

theorem flag_of_recv {a : Input} {f : Frame} (hrun : h.running = true) (hround : stationRound h a = some (h', out))
    (hevent : a.event = .recv f) (hip : h'.ll.candidateIp = ip) (hf : Probes f ip ∨ Announces f ip) :
    h'.flag = true := by
  have hconflict : f.type = arpType ∧ llArpConflict f.arp ip = true := by
    rcases hf with ⟨mac, rfl⟩ | ⟨mac, rfl⟩ <;> simp [llSendProbe, llSendAnnounce, arpRequest, llArpConflict]
  cases a with
  | frame g =>
    cases hevent
    cases hround
    rw [(handleArp_spec h f).1] at hip
    unfold llHandleArp
    rw [if_pos ⟨hrun, hconflict.1, hip ▸ hconflict.2⟩]
  | wake r =>
    simp only [Input.event] at hevent
    split at hevent <;> cases hevent

theorem mem_sent {acts : List Act} {a : Act} {f : Frame} (htrace : s.trace = acts ++ h.ll.trace) (ha : a ∈ acts)
    (hf : a.frame h.mac = some f) : f ∈ h.sent s := by
  unfold Station.sent
  rw [htrace, length_append, Nat.add_sub_cancel, take_left]
  exact mem_filterMap.mpr ⟨a, ha, hf⟩

/-- What a host owns or seeks after a round is new only if its thread has waited in vain for a conflict and has
sent an announcement or a probe for it. -/
theorem stationRound_spec {a : Input} (hround : stationRound h a = some (h', out)) (ip : Nat) : h'.running = h.running ∧
    (h'.Owns ip → h.Owns ip ∨ (a.event = .timeout ∧ h.Seeks ip ∧ ∃ f ∈ out, Announces f ip)) ∧
      (h'.Seeks ip → h.Seeks ip ∨ (a.event = .timeout ∧ ∃ f ∈ out, Probes f ip)) := by
  cases a with
  | frame f =>
    cases hround
    obtain ⟨hll, hrunning, hflag⟩ := handleArp_spec h f
    unfold Station.Owns Station.Seeks
    rw [hll]
    exact ⟨hrunning, fun hown => .inl ⟨hflag hown.1, hown.2⟩, fun hseek => .inl ⟨hflag hseek.1, hseek.2⟩⟩
  | wake r =>
    simp only [stationRound] at hround
    split at hround
    swap
    · cases hround
    next hflag =>
      obtain ⟨s, hs, heq⟩ := Option.map_eq_some_iff.mp hround
      cases heq
      cases hc : r.conflict with
      | true =>
        obtain ⟨hholds, htries⟩ := llRound_of_conflict hs hc
        exact ⟨rfl, fun hown => absurd hown.2 hholds, fun hseek => absurd hseek.2 htries⟩
      | false =>
        obtain ⟨acts, htrace, hholds, htries⟩ := llRound_of_quiet hs hc ip
        have hevent : (Input.wake r).event = .timeout := by simp [Input.event, hc]
        have hfree : h.flag = false := hflag ▸ hc
        refine ⟨rfl, ?_, ?_⟩
        · intro hown
          rcases hholds hown.2 with hold | ⟨hold, hsent⟩
          · exact .inl ⟨hfree, hold⟩
          · exact .inr ⟨hevent, ⟨hfree, hold⟩, _, mem_sent htrace hsent rfl, h.mac, rfl⟩
        · intro hseek
          rcases htries hseek.2 with hold | hsent
          · exact .inl ⟨hfree, hold⟩
          · exact .inr ⟨hevent, _, mem_sent htrace hsent rfl, h.mac, rfl⟩

end rounds

section network
variable {ι : Type}

/-- The hosts probe for addresses, announce them and give them up as they must. An owner gives up at a probe, so
that it never has to answer one. -/
theorem stations_defend :
    Defends (stations ι) (fun _ h => h.running = true) Station.Owns Station.Seeks Probes (fun _ => Announces) where
  keeps hrun hround := (stationRound_spec hround 0).1.trans hrun
  owned _ hround hown := by
    apply ((stationRound_spec hround _).2.1 hown).imp_right
    exact fun ⟨hevent, hseek, hsent⟩ => ⟨hevent, hseek, fun _ _ => hsent⟩
  sought _ hround hseek := (stationRound_spec hround _).2.2 hseek
  answers := by
    rintro i h a h' out ip f hrun hround hevent hprobe ⟨hflag, hip⟩
    cases hflag.symm.trans (flag_of_recv hrun hround hevent hip.1 (.inl hprobe))
  yields := by
    rintro i h a h' out ip f hrun hround hevent hannounce ⟨hflag, hip⟩
    cases hflag.symm.trans (flag_of_recv hrun hround hevent hip.1 (.inr hannounce))

variable [DecidableEq ι] [Fintype ι]

/-- The network when `ll_init` has launched all threads. -/
def startStations (mac : ι → List UInt8) (numConflicts : ι → Nat) : Net ι Station Frame where
  node := fun i => { ll := llLaunch (numConflicts i), mac := mac i }
  inbox := fun _ => []

/-- In every run, of two hosts that hold one address one has a conflict to take up. -/
theorem held_addresses_differ {mac : ι → List UInt8} {numConflicts : ι → Nat} {moves : List (NetMove ι Frame Input)}
    {net : Net ι Station Frame}
    (hrun : runAll (stations ι).fire moves (startStations mac numConflicts) = some net) {i j : ι} {ip : Nat}
    (hij : i ≠ j) (hi : (net.node i).ll.Holds ip) (hj : (net.node j).ll.Holds ip) :
    (net.node i).flag = true ∨ (net.node j).flag = true := by
  have hnone : ∀ i ip, ¬ ((startStations mac numConflicts).node i).Owns ip := by
    rintro i ip ⟨-, -, hstate | ⟨hstate, -⟩⟩ <;> cases hstate
  have hexclusive := stations_defend.exclusive hrun (fun _ => rfl) hnone
  by_contra hflags
  simp only [not_or, Bool.not_eq_true] at hflags
  exact hexclusive.single hij ⟨hflags.1, hi⟩ ⟨hflags.2, hj⟩

end network

section takeover

/-- A host wakes up in a quiet network, and the other one hears what it sends. -/
def sends (i : Bool) (f : Frame) : List (NetMove Bool Frame Input) := [.round i (.wake quiet), .round (!i) (.frame f)]

/-- One host takes an address, and the other one probes for the same and announces it. -/
def takeover : List (NetMove Bool Frame Input) :=
  [.round true (.wake quiet)] ++ (replicate 3 (sends true (llSendProbe [1] 0x01FEA9))).flatten ++
    (replicate 2 (sends true (llSendAnnounce [1] 0x01FEA9))).flatten ++ [.round false (.wake clash)] ++
    (replicate 3 (sends false (llSendProbe [2] 0x01FEA9))).flatten ++ sends false (llSendAnnounce [2] 0x01FEA9)

/-- Both hold the address, and the first one has yet to take up the conflict. -/
theorem held_addresses_differ_takeover : ∃ net : Net Bool Station Frame,
    runAll (stations Bool).fire takeover (startStations (fun i => if i then [1] else [2]) (fun _ => 0)) = some net ∧
      (net.node true).ll.Holds 0x01FEA9 ∧ (net.node false).ll.Holds 0x01FEA9 ∧ (net.node false).flag = false ∧
      ((net.node true).flag = true ∨ (net.node false).flag = true) := by
  have hcompute : (runAll (stations Bool).fire takeover
    (startStations (fun i => if i then [1] else [2]) (fun _ => 0))).any
      (fun net => decide ((net.node true).ll.candidateIp = 0x01FEA9 ∧ (net.node true).ll.state = .stable ∧
        (net.node false).ll.candidateIp = 0x01FEA9 ∧ (net.node false).ll.state = .announce ∧
          (net.node false).ll.announce = 1 ∧
        (net.node false).flag = false)) = true := by decide +kernel
  obtain ⟨net, hrun, htest⟩ := (Option.any_eq_true _ _).mp hcompute
  obtain ⟨hip, hstate, hip', hstate', hannounce, hflag⟩ := of_decide_eq_true htest
  have hholds : (net.node true).ll.Holds 0x01FEA9 := ⟨hip, .inl hstate⟩
  have hholds' : (net.node false).ll.Holds 0x01FEA9 := ⟨hip', .inr ⟨hstate', by rw [hannounce]; decide⟩⟩
  exact ⟨net, hrun, hholds, hholds', hflag, held_addresses_differ hrun (by decide) hholds hholds'⟩

end takeover

end Mdns.LinkLocal
