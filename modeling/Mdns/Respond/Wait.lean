import Mdns.Respond.Run

/-!
# Interrupted waits

How long the responder still waits after packets that do not change its state. Each packet that
parses sets the timeout to 250 ms less the last wait alone, whatever the wait was to be and however
long it has lasted.
-/
namespace Mdns
open Lib List Option

section rounds
variable {fuel : Nat} {r r' : Responder} {w : Wait} {d : Datagram} {out : List Packet} {rx : Message}

structure Probing (r : Responder) : Prop where
  state : r.state = .init ∨ r.state = .firstProbeSent ∨ r.state = .secondProbeSent ∨ r.state = .thirdProbeSent
  waiting : r.waiting = true
  running : r.running = true

def parsed (fuel : Nat) (r : Responder) (d : Datagram) : Bool :=
  match r.parse fuel d with
  | .ok _ => true
  | .error _ => false

theorem processProbeResp_wait (h : processProbeResp fuel r rx w = some r') (hinit : r.state ≠ .init)
    (hsame : r'.state = r.state) : r'.probeWaitTime = recalcTimeout w.start w.stop 250 ∧ r'.running = r.running := by
  obtain ⟨⟨r1, ret⟩, hfix, h⟩ := bind_eq_some_iff.mp h
  obtain ⟨fqdn, services, rfl⟩ := fixResponseConflicts_renamed hfix
  simp only [pure, some.injEq] at h
  split at h
  · subst h
    exact absurd hsame.symm hinit
  · split at h
    · subst h
      exact absurd hsame.symm hinit
    · subst h
      exact ⟨rfl, rfl⟩

theorem probeStateRx_wait (h : probeStateRx fuel r rx w = some r') (hinit : r.state ≠ .init)
    (hwait : r.waiting = true) (hsame : r'.state = r.state) :
    r'.probeWaitTime = recalcTimeout w.start w.stop 250 ∧ r'.waiting = true ∧ r'.running = r.running := by
  unfold probeStateRx at h
  split at h
  · obtain ⟨r1, hproc, h⟩ := bind_eq_some_iff.mp h
    cases h
    obtain ⟨h1, h2⟩ := processProbeResp_wait hproc hinit hsame
    exact ⟨h1, rfl, h2⟩
  · cases h
    exact ⟨rfl, by simp [hwait], rfl⟩

theorem onRx_wait (hp : Probing r) (h : onRx fuel r rx w = some (r', out)) (hsame : r'.state = r.state) :
    r'.probeWaitTime = recalcTimeout w.start w.stop 250 ∧ r'.waiting = true ∧ r'.running = r.running := by
  have hprobe : ∀ {h' : Option Responder}, h' = probeStateRx fuel r rx w → r.state ≠ .init →
      (h' >>= fun r => pure (r, [])) = some (r', out) →
      r'.probeWaitTime = recalcTimeout w.start w.stop 250 ∧ r'.waiting = true ∧ r'.running = r.running := by
    intro h' heq hinit hbind
    obtain ⟨r1, hr1, hpure⟩ := bind_eq_some_iff.mp hbind
    cases hpure
    exact probeStateRx_wait (heq ▸ hr1) hinit hp.waiting hsame
  unfold onRx at h
  rcases hp.state with hs | hs | hs | hs
  · rw [hs] at h
    cases h
    exact ⟨rfl, rfl, rfl⟩
  · exact hprobe rfl (by rw [hs]; nofun) (by rw [hs] at h; exact h)
  · exact hprobe rfl (by rw [hs]; nofun) (by rw [hs] at h; exact h)
  · exact hprobe rfl (by rw [hs]; nofun) (by rw [hs] at h; exact h)

def timeoutAfter (wait : Nat) (x : Wait × Bool) : Nat :=
  if x.2 then recalcTimeout x.1.start x.1.stop 250 else wait - x.1.waited

theorem responderRound_wait (hp : Probing r) (hctrl : w.ctrl = none) (hrx : w.arrival = .packet d)
    (h : responderRound fuel r w = some (r', out)) (hsame : r'.state = r.state) :
    Probing r' ∧ r'.probeWaitTime = timeoutAfter r.probeWaitTime (w, parsed fuel r d) := by
  obtain ⟨r1, rx, hrecv, hrest⟩ := responderRound_packet hp.running hctrl hrx h
  have hwaits : r.waits w = { r with probeWaitTime := r.probeWaitTime - w.waited } := by
    rw [Responder.waits, if_pos hp.waiting]
  rw [hwaits] at hrecv
  obtain ⟨buf, hr1, hparse⟩ := recvPacket_cases hrecv
  have hp1 : Probing r1 := by
    rw [hr1]
    exact ⟨hp.state, hp.waiting, hp.running⟩
  have hstate1 : r1.state = r.state := by rw [hr1]
  rcases hrest with ⟨hnone, rfl, -⟩ | ⟨m, hsome, hon⟩
  · have hparsed : parsed fuel r d = false := by
      rcases hparse with ⟨m, -, hm⟩ | ⟨herr, -⟩
      · rw [hnone] at hm
        cases hm
      · exact congrArg (fun x => match x with | .ok _ => true | .error _ => false) herr
    refine ⟨hp1, ?_⟩
    rw [timeoutAfter, hparsed, hr1]
    rfl
  · have hparsed : parsed fuel r d = true := by
      rcases hparse with ⟨m', hok, -⟩ | ⟨-, hm⟩
      · exact congrArg (fun x => match x with | .ok _ => true | .error _ => false) hok
      · rw [hsome] at hm
        cases hm
    obtain ⟨h1, h2, h3⟩ := onRx_wait hp1 hon (hsame.trans hstate1.symm)
    refine ⟨⟨?_, h2, h3.trans hp1.running⟩, ?_⟩
    · rw [hsame]
      exact hp.state
    · rw [h1, timeoutAfter, hparsed]
      rfl

end rounds

section waits

def Wait.Clocked (w : Wait) : Prop := w.start < 4294967296 ∧ w.waited < 4294967296

/-- The responder receives packets that do not change its state; each one comes with whether it
parses. -/
inductive Interrupted (fuel : Nat) : Responder → List (Wait × Bool) → Responder → Prop where
  | nil (r : Responder) : Interrupted fuel r [] r
  | cons {r r' r'' : Responder} {w : Wait} {d : Datagram} {out : List Packet} {ws : List (Wait × Bool)}
      (hctrl : w.ctrl = none) (hrx : w.arrival = .packet d) (hclock : w.Clocked)
      (hround : responderRound fuel r w = some (r', out)) (hsame : r'.state = r.state)
      (hrest : Interrupted fuel r' ws r'') : Interrupted fuel r ((w, parsed fuel r d) :: ws) r''

def total (ws : List (Wait × Bool)) : Nat := (ws.map (·.1.waited)).sum

/-- The millisecond that `interval` loses when the clock wraps. -/
def Wait.wrap (w : Wait) : Nat := if w.start + w.waited < 4294967296 then 0 else 1

variable {fuel : Nat} {r r' : Responder} {w : Wait} {ws : List (Wait × Bool)} {wait : Nat}

theorem interval_eq (h : w.Clocked) : interval w.start w.stop = w.waited - w.wrap := by
  obtain ⟨h1, h2⟩ := h
  unfold interval Wait.stop Wait.wrap uint32Max
  split <;> split <;> omega

theorem recalcTimeout_eq (h : w.Clocked) : recalcTimeout w.start w.stop 250 = 250 - (w.waited - w.wrap) := by
  unfold recalcTimeout
  rw [interval_eq h]
  split <;> omega

theorem Interrupted.timeout (h : Interrupted fuel r ws r') (hp : Probing r) :
    Probing r' ∧ r'.probeWaitTime = ws.foldl timeoutAfter r.probeWaitTime ∧ ∀ x ∈ ws, x.1.Clocked := by
  induction h with
  | nil r => exact ⟨hp, rfl, nofun⟩
  | cons hctrl hrx hclock hround hsame hrest ih =>
    obtain ⟨hp1, hwait⟩ := responderRound_wait hp hctrl hrx hround hsame
    obtain ⟨hp', heq, hclocks⟩ := ih hp1
    refine ⟨hp', ?_, forall_mem_cons.mpr ⟨hclock, hclocks⟩⟩
    rw [heq, hwait, foldl_cons]

theorem total_cons (x : Wait × Bool) (ws : List (Wait × Bool)) : total (x :: ws) = x.1.waited + total ws := rfl

theorem total_append (ws vs : List (Wait × Bool)) : total (ws ++ vs) = total ws + total vs := by
  simp [total]

theorem foldl_unparsed (h : ∀ x ∈ ws, x.2 = false) : ws.foldl timeoutAfter wait = wait - total ws := by
  induction ws generalizing wait with
  | nil => rfl
  | cons x ws ih =>
    rw [forall_mem_cons] at h
    rw [foldl_cons, ih h.2, timeoutAfter, h.1, total_cons]
    simp only [Bool.false_eq_true, if_false]
    omega

theorem last_parsed (ws : List (Wait × Bool)) :
    (∀ x ∈ ws, x.2 = false) ∨ ∃ before w after, ws = before ++ (w, true) :: after ∧ ∀ x ∈ after, x.2 = false := by
  induction ws with
  | nil => exact .inl nofun
  | cons x ws ih =>
    rcases ih with h | ⟨before, w, after, rfl, h⟩
    · obtain ⟨w, b⟩ := x
      cases b with
      | false => exact .inl (forall_mem_cons.mpr ⟨rfl, h⟩)
      | true => exact .inr ⟨[], w, ws, rfl, h⟩
    · exact .inr ⟨x :: before, w, after, rfl, h⟩

theorem last_parsed_unique {before before' after after' : List (Wait × Bool)} {w w' : Wait}
    (h : before ++ (w, true) :: after = before' ++ (w', true) :: after') (hafter : ∀ x ∈ after, x.2 = false)
    (hafter' : ∀ x ∈ after', x.2 = false) : before = before' ∧ w = w' ∧ after = after' := by
  have hskip : ∀ {a : List (Wait × Bool)} {v v' : Wait} {as bs : List (Wait × Bool)},
    (v, true) :: as = a ++ (v', true) :: bs →
      (∀ x ∈ as, x.2 = false) → a = [] ∧ v = v' ∧ as = bs := by
    intro a v v' as bs heq hall
    cases a with
    | nil =>
      cases heq
      exact ⟨rfl, rfl, rfl⟩
    | cons y a =>
      obtain ⟨-, rfl⟩ := List.cons.inj heq
      exact absurd (hall (v', true) (by simp)) nofun
  rcases append_eq_append_iff.mp h with ⟨a, rfl, heq⟩ | ⟨a, rfl, heq⟩
  · obtain ⟨rfl, hw, has⟩ := hskip heq hafter
    exact ⟨(append_nil _).symm, hw, has⟩
  · obtain ⟨rfl, hw, has⟩ := hskip heq hafter'
    exact ⟨append_nil _, hw.symm, has.symm⟩

/-- The packets leave a wait of so many milliseconds alone: none of them parses, or, when the last
one that does arrives, 250 ms are left of the wait at its start (251 if the clock has wrapped since),
or no time is left by either count. -/
def LeavesAlone (wait : Nat) (ws : List (Wait × Bool)) : Prop :=
  ∀ before w after, ws = before ++ (w, true) :: after → (∀ x ∈ after, x.2 = false) →
    wait = 250 + w.wrap + total before ∨ (250 ≤ w.waited - w.wrap + total after ∧ wait ≤ total ws)

theorem foldl_timeoutAfter (hclock : ∀ x ∈ ws, x.1.Clocked) :
    ws.foldl timeoutAfter wait = wait - total ws ↔ LeavesAlone wait ws := by
  rcases last_parsed ws with hnone | ⟨before, w, after, rfl, hafter⟩
  · refine iff_of_true (foldl_unparsed hnone) ?_
    rintro before w after rfl -
    exact absurd (hnone (w, true) (by simp)) nofun
  · have hw : w.Clocked := hclock (w, true) (by simp)
    have hwrap : w.wrap ≤ w.waited := by
      have := hw.1
      unfold Wait.wrap
      split <;> omega
    have hfold : (before ++ (w, true) :: after).foldl timeoutAfter wait = 250 - (w.waited - w.wrap) - total after := by
      rw [foldl_append, foldl_cons, foldl_unparsed hafter, timeoutAfter]
      simp only [if_true, recalcTimeout_eq hw]
    have htotal : total (before ++ (w, true) :: after) = total before + (w.waited + total after) := by
      rw [total_append, total_cons]
    rw [hfold, htotal]
    constructor
    · intro heq before' w' after' hsplit hafter'
      obtain ⟨rfl, rfl, rfl⟩ := last_parsed_unique hsplit hafter hafter'
      rw [htotal]
      omega
    · intro h
      have := h before w after rfl hafter
      rw [htotal] at this
      omega

/-- After packets that do not change a state in which probes are sent, the timeout in force is what
is left of the wait exactly if they leave it alone. -/
theorem interrupted_wait (fuel : Nat) (r r' : Responder) (ws : List (Wait × Bool)) (hp : Probing r)
    (h : Interrupted fuel r ws r') :
    (r'.waiting = true ∧ r'.probeWaitTime = r.probeWaitTime - total ws) ↔ LeavesAlone r.probeWaitTime ws := by
  obtain ⟨hp', heq, hclock⟩ := h.timeout hp
  rw [and_iff_right hp'.waiting, heq]
  exact foldl_timeoutAfter hclock

end waits

section runs

/-- A responder for `foo.local` that has just begun, with so many milliseconds to wait. -/
def newResponder (rand : Nat) : Responder :=
  startResponder { hname := fooName, domname := localDomain,
                   myIpaddr := 3232235777, tx := { data := [], mend := 0, cur := 0 }, rx := [] } rand

def emptyQuery (waited : Nat) : Wait :=
  { start := 0, waited, arrival := .packet { addr := 3232235778, port := 5353, bytes := replicate 12 0 } }

def afterQuery (wait : Nat) : Responder :=
  { newResponder wait with probeWaitTime := 150, fromAddr := 3232235778, fromPort := 5353, rx := replicate 12 0 }

theorem emptyQuery_clocked : (emptyQuery 100).Clocked :=
  ⟨show 0 < 4294967296 by decide, show 100 < 4294967296 by decide⟩

theorem afterQuery_250 : Interrupted 1 (newResponder 250) [(emptyQuery 100, true)] (afterQuery 250) := by
  have hround : responderRound 1 (newResponder 250) (emptyQuery 100) = some (afterQuery 250, []) := rfl
  exact .cons rfl rfl emptyQuery_clocked hround rfl (.nil _)

theorem interrupted_wait_250 : (afterQuery 250).waiting = true ∧
    (afterQuery 250).probeWaitTime = (newResponder 250).probeWaitTime - total [(emptyQuery 100, true)] := by
  refine (interrupted_wait 1 (newResponder 250) (afterQuery 250) _ ⟨.inl rfl, rfl, rfl⟩ afterQuery_250).mpr ?_
  rintro before w after heq -
  cases before with
  | nil =>
    cases heq
    exact .inl rfl
  | cons x before => simp at heq

/-- The first wait is 120 ms; a packet comes after 100 ms, and 150 ms are left instead of 20. -/
theorem interrupted_wait_120 : Interrupted 1 (newResponder 120) [(emptyQuery 100, true)] (afterQuery 120) ∧
    (afterQuery 120).probeWaitTime ≠ (newResponder 120).probeWaitTime - total [(emptyQuery 100, true)] := by
  have hround : responderRound 1 (newResponder 120) (emptyQuery 100) = some (afterQuery 120, []) := rfl
  refine ⟨?_, by decide⟩
  exact .cons rfl rfl emptyQuery_clocked hround rfl (.nil _)

end runs

end Mdns
