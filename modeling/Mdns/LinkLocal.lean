import Mdns.Lib.Fold

/-!
# The link-local address thread

`ll_main` of `linklocal.c`. A round of its loop takes what the system gives it and leaves a trace of
what it does. `none` is the return of the thread after a failed wait.
-/
namespace Mdns.LinkLocal
open Lib

def probeWait : Nat := 1
def probeNum : Nat := 3
def probeMin : Nat := 1
def probeMax : Nat := 2
def announceWait : Nat := 2
def announceNum : Nat := 2
def announceInterval : Nat := 2
def maxConflicts : Nat := 10
def rateLimitInterval : Nat := 60
def sysInitRetry : Nat := 1000
def sysForever : Nat := 4294967295

inductive LlState where
  | noAddress
  | probe
  | announce
  | rateLimitedProbe
  | stable
  deriving DecidableEq, Repr

/-- What the thread does that can be seen from outside. -/
inductive Act where
  | chosen (ip : Nat)
  | sentProbe (ip : Nat)
  | sentAnnounce (ip : Nat)
  | tcpipInit (ip : Nat)
  | tcpipHalt
  | conflict
  deriving DecidableEq, Repr

/-- The variables of the thread, and the trace of its acts, newest first. -/
structure Ll where
  state : LlState := .noAddress
  candidateIp : Nat := 0
  probe : Nat := 0
  announce : Nat := 0
  numConflicts : Nat
  timeout : Nat := 0
  trace : List Act := []
  deriving DecidableEq, Repr

inductive SysStatus where
  | success
  | noEvents
  | failed
  deriving DecidableEq, Repr

/-- What one round is given: the result of the wait, the draws of `sys_random` and whether
`sys_tcpip_init` succeeds. -/
structure Round where
  status : SysStatus := .noEvents
  conflict : Bool := false
  low : Nat := 0
  mid : Nat := 0
  delay : Nat := 0
  initOk : Bool := true
  deriving DecidableEq, Repr

/-- `sys_random`: a draw between the two bounds. -/
def sysRandom (floor ceiling draw : Nat) : Nat := floor + draw % (ceiling - floor + 1)

/-- `ll_random_ip`. -/
def llRandomIp (r : Round) : Nat :=
  (sysRandom 0 255 r.low) <<< 24 ||| (sysRandom 1 254 r.mid) <<< 16 ||| 254 <<< 8 ||| 169

def Ll.act (s : Ll) (a : Act) : Ll := { s with trace := a :: s.trace }

/-- The thread takes another address for its candidate. -/
def Ll.choose (s : Ll) (ip : Nat) : Ll := { s with candidateIp := ip }.act (.chosen ip)

def Ll.slowDown (s : Ll) : Ll :=
  { s with state := .rateLimitedProbe, candidateIp := 0, timeout := rateLimitInterval * 1000 }

def Ll.startOver (s : Ll) : Ll := { s with state := .noAddress, timeout := 0 }

/-- `case LL_NO_ADDRESS`. -/
def takeAddress (s : Ll) (r : Round) : Ll :=
  { s.choose (llRandomIp r) with timeout := sysRandom 0 (probeWait * 1000) r.delay, probe := 0, state := .probe }

/-- `case LL_PROBE`. -/
def probeOnce (s : Ll) (r : Round) : Ll :=
  if r.conflict ∧ maxConflicts ≤ s.numConflicts then s.slowDown
  else if r.conflict then s.startOver
  else if s.probe = probeNum - 1 then
    { s.act (.sentProbe s.candidateIp) with state := .announce, timeout := announceWait * 1000, announce := 0 }
  else if s.probe < probeNum - 1 then
    { s.act (.sentProbe s.candidateIp) with
      probe := s.probe + 1, timeout := sysRandom (probeMin * 1000) (probeMax * 1000) r.delay }
  else s

/-- `case LL_ANNOUNCE`. -/
def announceOnce (s : Ll) (r : Round) : Ll :=
  if r.conflict ∧ maxConflicts ≤ s.numConflicts then s.slowDown
  else if r.conflict then s.startOver
  else if s.announce = announceNum - 1 then
    { s.act (.sentAnnounce s.candidateIp) with state := .stable, timeout := announceInterval * 1000 }
  else if s.announce < announceNum - 1 then
    { s.act (.sentAnnounce s.candidateIp) with announce := s.announce + 1, timeout := announceInterval * 1000 }
  else s

/-- `case LL_RATE_LIMITED_PROBE`: the number of probes stays what it was. -/
def probeSlowly (s : Ll) (r : Round) : Ll :=
  if r.conflict then { s with candidateIp := 0, timeout := rateLimitInterval * 1000 }
  else { s.choose (llRandomIp r) with timeout := 0, state := .probe }

/-- `case LL_STABLE`. -/
def useAddress (s : Ll) (r : Round) : Ll :=
  if r.conflict then (s.act .tcpipHalt).startOver
  else { s.act (.tcpipInit s.candidateIp) with
         numConflicts := 0, timeout := if r.initOk then sysForever else sysInitRetry }

def Ll.notice (s : Ll) (r : Round) : Ll :=
  if r.conflict then { s.act .conflict with numConflicts := (s.numConflicts + 1) % 2 ^ 32 } else s

/-- One round of `ll_main`. -/
def llRound (s : Ll) (r : Round) : Option Ll :=
  if r.status = .failed then none
  else
    let s := s.notice r
    some (match s.state with
      | .noAddress => takeAddress s r
      | .probe => probeOnce s r
      | .announce => announceOnce s r
      | .rateLimitedProbe => probeSlowly s r
      | .stable => useAddress s r)

/-- The thread at its start; `num_conflicts` is not initialised. -/
def llLaunch (numConflicts : Nat) : Ll := { numConflicts }

section trace

/-- The acts for an address since it was chosen, newest first. -/
def probed (ip probes : Nat) (older : List Act) : List Act :=
  List.replicate probes (.sentProbe ip) ++ .chosen ip :: older

def announced (ip announces : Nat) (older : List Act) : List Act :=
  List.replicate announces (.sentAnnounce ip) ++ probed ip probeNum older

def inUse (ip calls : Nat) (older : List Act) : List Act :=
  List.replicate calls (.tcpipInit ip) ++ announced ip announceNum older

/-- Every announcement comes after all probes, and every call of `sys_tcpip_init` after all probes and
all announcements for its address; nothing else, and no conflict, comes between. -/
structure Claims (trace : List Act) : Prop where
  announcement : ∀ later ip earlier, trace = later ++ .sentAnnounce ip :: earlier →
    ∃ announces older, announces < announceNum ∧ earlier = announced ip announces older
  call : ∀ later ip earlier, trace = later ++ .tcpipInit ip :: earlier → ∃ calls older, earlier = inUse ip calls older

theorem claims_nil : Claims [] := ⟨fun later _ _ h => by simp at h, fun later _ _ h => by simp at h⟩

theorem Claims.cons {trace : List Act} {a : Act} (h : Claims trace)
    (hann : ∀ ip, a = .sentAnnounce ip → ∃ announces older,
      announces < announceNum ∧ trace = announced ip announces older)
    (hcall : ∀ ip, a = .tcpipInit ip → ∃ calls older, trace = inUse ip calls older) : Claims (a :: trace) := by
  constructor
  · intro later ip earlier heq
    cases later with
    | nil =>
      obtain ⟨ha, rfl⟩ := List.cons.inj heq
      exact hann ip ha
    | cons b later => exact h.announcement later ip earlier (List.cons.inj heq).2
  · intro later ip earlier heq
    cases later with
    | nil =>
      obtain ⟨ha, rfl⟩ := List.cons.inj heq
      exact hcall ip ha
    | cons b later => exact h.call later ip earlier (List.cons.inj heq).2

theorem Claims.other {trace : List Act} {a : Act} (h : Claims trace) (hann : ∀ ip, a ≠ .sentAnnounce ip)
    (hcall : ∀ ip, a ≠ .tcpipInit ip) : Claims (a :: trace) :=
  h.cons (fun ip ha => absurd ha (hann ip)) (fun ip ha => absurd ha (hcall ip))

/-- What the thread has done for its candidate, by state. -/
def Ll.Progress (s : Ll) : Prop :=
  match s.state with
  | .noAddress => True
  | .probe => s.probe < probeNum ∧ ∃ older, s.trace = probed s.candidateIp s.probe older
  | .announce => s.announce < announceNum ∧ ∃ older, s.trace = announced s.candidateIp s.announce older
  | .rateLimitedProbe => True
  | .stable => ∃ calls older, s.trace = inUse s.candidateIp calls older

/-- What holds between two rounds. -/
structure Ll.InOrder (s : Ll) : Prop where
  claims : Claims s.trace
  progress : s.Progress

/-- A new address in rate-limited mode finds the count of probes at zero. -/
def probesAfresh (s : Ll) (r : Round) : Bool := decide (s.state = .rateLimitedProbe → r.conflict = false → s.probe = 0)

variable {s s' : Ll} {r : Round}

theorem takeAddress_inOrder (h : Claims s.trace) (r : Round) : (takeAddress s r).InOrder :=
  ⟨h.other nofun nofun, show 0 < probeNum by decide, s.trace, rfl⟩

theorem slowDown_inOrder (h : Claims s.trace) : s.slowDown.InOrder := ⟨h, trivial⟩

theorem startOver_inOrder (h : Claims s.trace) : s.startOver.InOrder := ⟨h, trivial⟩

theorem probeOnce_inOrder (h : Claims s.trace) (hstate : s.state = .probe) (hlt : s.probe < probeNum)
    (htrace : r.conflict = false → ∃ older, s.trace = probed s.candidateIp s.probe older) :
    (probeOnce s r).InOrder := by
  unfold probeOnce
  split_ifs with h1 h2 h3 h4
  · exact slowDown_inOrder h
  · exact startOver_inOrder h
  · obtain ⟨older, heq⟩ := htrace (Bool.eq_false_iff.mpr h2)
    refine ⟨h.other nofun nofun, show 0 < announceNum by decide, older, ?_⟩
    show Act.sentProbe s.candidateIp :: s.trace = _
    rw [heq, h3]
    rfl
  · obtain ⟨older, heq⟩ := htrace (Bool.eq_false_iff.mpr h2)
    refine ⟨h.other nofun nofun, ?_⟩
    simp only [Ll.Progress, Ll.act, hstate]
    exact ⟨by unfold probeNum at h4 ⊢; omega, older, by rw [heq]; rfl⟩
  · unfold probeNum at *
    omega

theorem announceOnce_inOrder (h : Claims s.trace) (hstate : s.state = .announce) (hlt : s.announce < announceNum)
    (htrace : r.conflict = false → ∃ older, s.trace = announced s.candidateIp s.announce older) :
    (announceOnce s r).InOrder := by
  have hsend : r.conflict = false → Claims (.sentAnnounce s.candidateIp :: s.trace) := by
    intro hc
    refine h.cons (fun ip ha => ?_) nofun
    cases ha
    obtain ⟨older, heq⟩ := htrace hc
    exact ⟨s.announce, older, hlt, heq⟩
  unfold announceOnce
  split_ifs with h1 h2 h3 h4
  · exact slowDown_inOrder h
  · exact startOver_inOrder h
  · obtain ⟨older, heq⟩ := htrace (Bool.eq_false_iff.mpr h2)
    refine ⟨hsend (Bool.eq_false_iff.mpr h2), 0, older, ?_⟩
    show Act.sentAnnounce s.candidateIp :: s.trace = _
    rw [heq, h3]
    rfl
  · obtain ⟨older, heq⟩ := htrace (Bool.eq_false_iff.mpr h2)
    refine ⟨hsend (Bool.eq_false_iff.mpr h2), ?_⟩
    simp only [Ll.Progress, Ll.act, hstate]
    exact ⟨by unfold announceNum at h4 ⊢; omega, older, by rw [heq]; rfl⟩
  · unfold announceNum at *
    omega

theorem probeSlowly_inOrder (h : Claims s.trace) (hstate : s.state = .rateLimitedProbe)
    (hzero : r.conflict = false → s.probe = 0) : (probeSlowly s r).InOrder := by
  unfold probeSlowly
  split_ifs with h1
  · refine ⟨h, ?_⟩
    simp only [Ll.Progress, hstate]
  · have hp := hzero (Bool.eq_false_iff.mpr h1)
    refine ⟨h.other nofun nofun, ?_, s.trace, ?_⟩
    · show s.probe < probeNum
      rw [hp]
      decide
    · show Act.chosen (llRandomIp r) :: s.trace = probed (llRandomIp r) s.probe s.trace
      rw [hp]
      rfl

theorem useAddress_inOrder (h : Claims s.trace) (hstate : s.state = .stable)
    (htrace : r.conflict = false → ∃ calls older, s.trace = inUse s.candidateIp calls older) :
    (useAddress s r).InOrder := by
  unfold useAddress
  split
  · exact startOver_inOrder (h.other nofun nofun)
  · next h1 =>
    obtain ⟨calls, older, heq⟩ := htrace (Bool.eq_false_iff.mpr h1)
    refine ⟨h.cons nofun (fun ip ha => ?_), ?_⟩
    · cases ha
      exact ⟨calls, older, heq⟩
    · simp only [Ll.Progress, Ll.act, hstate]
      exact ⟨calls + 1, older, by rw [heq]; rfl⟩

theorem notice_of_conflict (h : r.conflict = true) :
    s.notice r = { s with trace := .conflict :: s.trace, numConflicts := (s.numConflicts + 1) % 2 ^ 32 } := if_pos h

theorem notice_of_no_conflict (h : r.conflict = false) : s.notice r = s := if_neg (by simp [h])

theorem notice_claims (h : Claims s.trace) (r : Round) : Claims (s.notice r).trace := by
  cases hc : r.conflict with
  | false => rwa [notice_of_no_conflict hc]
  | true =>
    rw [notice_of_conflict hc]
    exact h.other nofun nofun

theorem notice_state (s : Ll) (r : Round) : (s.notice r).state = s.state ∧ (s.notice r).probe = s.probe ∧
    (s.notice r).announce = s.announce := by
  unfold Ll.notice
  split <;> exact ⟨rfl, rfl, rfl⟩

theorem llRound_inOrder (h : guarded probesAfresh llRound s r = some s') (hs : s.InOrder) : s'.InOrder := by
  obtain ⟨hmet, hround⟩ := guarded_eq_some.mp h
  have hmet := of_decide_eq_true hmet
  have hclaims := notice_claims hs.claims r
  obtain ⟨hstate, hprobe, hannounce⟩ := notice_state s r
  have hprogress := hs.progress
  unfold llRound at hround
  split_ifs at hround with hfailed
  cases hround
  unfold Ll.Progress at hprogress
  cases hst : s.state with
  | noAddress =>
    simp only [hstate, hst]
    exact takeAddress_inOrder hclaims r
  | probe =>
    rw [hst] at hprogress
    simp only [hstate, hst]
    refine probeOnce_inOrder hclaims (hstate.trans hst) (hprobe ▸ hprogress.1) (fun hc => ?_)
    rw [notice_of_no_conflict hc]
    exact hprogress.2
  | announce =>
    rw [hst] at hprogress
    simp only [hstate, hst]
    refine announceOnce_inOrder hclaims (hstate.trans hst) (hannounce ▸ hprogress.1) (fun hc => ?_)
    rw [notice_of_no_conflict hc]
    exact hprogress.2
  | rateLimitedProbe =>
    simp only [hstate, hst]
    refine probeSlowly_inOrder hclaims (hstate.trans hst) (fun hc => ?_)
    rw [hprobe]
    exact hmet hst hc
  | stable =>
    rw [hst] at hprogress
    simp only [hstate, hst]
    refine useAddress_inOrder hclaims (hstate.trans hst) (fun hc => ?_)
    rw [notice_of_no_conflict hc]
    exact hprogress

/-- In every run that starts afresh in rate-limited mode, an address is announced after all its probes
and used after all its announcements. -/
theorem run_claims {rounds : List Round} {numConflicts : Nat}
    (h : runAll (guarded probesAfresh llRound) rounds (llLaunch numConflicts) = some s) : Claims s.trace :=
  (runAll_keeps (fun _ _ _ hs hI => llRound_inOrder hs hI) h
    (show (llLaunch numConflicts).InOrder from ⟨claims_nil, trivial⟩)).claims

/-- A round in which nothing happens, and one with a conflict. -/
def quiet : Round := {}
def clash : Round := { conflict := true }

/-- A conflict before the first probe at the tenth count, and then a quiet network. -/
def slowRounds : List Round := [quiet, clash] ++ List.replicate 8 quiet

def lateRounds : List Round := [quiet, quiet, quiet, clash] ++ List.replicate 5 quiet

theorem run_claims_slow :
    ∃ s, runAll (guarded probesAfresh llRound) slowRounds (llLaunch 9) = some s ∧
      s.trace.head? = some (.tcpipInit s.candidateIp) ∧ Claims s.trace := by
  have h : (runAll (guarded probesAfresh llRound) slowRounds (llLaunch 9)).map (fun s =>
      decide (s.trace.head? = some (.tcpipInit s.candidateIp))) = some true := by decide +kernel
  obtain ⟨s, hs, hhead⟩ := Option.map_eq_some_iff.mp h
  exact ⟨s, hs, of_decide_eq_true hhead, run_claims hs⟩

/-- With a conflict after the second probe, the next address is used after a single probe. -/
theorem claims_fails :
    ∃ s, runAll llRound lateRounds (llLaunch 9) = some s ∧
      ¬ Claims s.trace := by
  have h : (runAll llRound lateRounds (llLaunch 9)).map (fun s =>
      s.trace) = some [.tcpipInit 0x01FEA9, .sentAnnounce 0x01FEA9, .sentAnnounce 0x01FEA9, .sentProbe 0x01FEA9,
        .chosen 0x01FEA9, .conflict, .sentProbe 0x01FEA9, .sentProbe 0x01FEA9, .chosen 0x01FEA9] := by decide +kernel
  obtain ⟨s, hs, htrace⟩ := Option.map_eq_some_iff.mp h
  refine ⟨s, hs, fun hc => ?_⟩
  obtain ⟨calls, older, heq⟩ := hc.call [] _ _ htrace
  cases calls with
  | zero => simp [inUse, announced, announceNum, probed, probeNum, List.replicate] at heq
  | succ calls => simp [inUse, List.replicate] at heq

end trace

end Mdns.LinkLocal
