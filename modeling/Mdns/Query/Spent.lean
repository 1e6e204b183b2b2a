import Mdns.Query.Known

/-!
# Attempts that are spent

When a question finds no room in the packet, `prepare_query` counts it as an attempt all the same.
So no attempt is lost exactly if the questions that are due fit into the packet, but for those that
are in it already.
-/
namespace Mdns
open Lib List Option

variable {n k : Nat} {q q₁ q' : Querier n k} {s a : Fin n} {c : Fin k} {elapsed : Nat} {st st₁ st₂ : Sched n k}

/-- The timers and the retry state of an A record, of a monitor and of an instance. -/
def ARec.clock (r : ARec n) : ARecState × Nat × Nat × Nat := (r.state, r.ttl, r.nextRefresh, r.ttlPercent)

def ServiceMonitor.clock (mon : ServiceMonitor n) : Nat × Nat := (mon.nextRefresh, mon.refreshPeriod)

def ServiceInstance.clock (i : ServiceInstance n k) : Nat × Nat × Nat × Nat :=
  (i.ptrTtl, i.srvTtl, i.nextRefresh, i.ttlPercent)

def ServiceInstance.Advances (i j : ServiceInstance n k) : Prop := 0 < i.ttlPercent ∧ j.ttlPercent = i.ttlPercent / 2

def Message.Asking (m : Message) (x : Labels × Nat) : Prop := ∃ xs, m.Questions xs ∧ x ∈ xs

/-- A call of `prepare_query` that spends no attempt: every A record and every instance that has
used up a question has it in the message, and the message is sent. When the call fails, it has
changed nothing. -/
structure NoneSpent (q : Querier n k) (st : Sched n k) : Prop where
  arecs : ∀ a, (q.arecs a).Advances (st.q.arecs a) → st.q.tx.Asking (plainLabels (q.arecs a).fqdn, tA) ∧ st.ret = 1
  sinsts : ∀ s, (q.sinsts s).Advances (st.q.sinsts s) →
    st.q.tx.Asking (plainLabels (q.sinsts s).fqsn, tAny) ∧ st.ret = 1
  failed : st.ret = -1 → (∀ a, (st.q.arecs a).clock = (q.arecs a).clock) ∧
    (∀ c, (st.q.smons c).clock = (q.smons c).clock) ∧
    ∀ s, (st.q.sinsts s).clock = (q.sinsts s).clock

def Querier.AllAsked (q : Querier n k) (elapsed : Nat) : Prop :=
  ∃ ws, datagram.pack [] (q.dueAttempts elapsed) = some ws ∧ ∀ x ∈ q.dueAttempts elapsed, ∃ w ∈ ws, w.ask = x.ask

instance (q : Querier n k) (elapsed : Nat) : Decidable (q.AllAsked elapsed) :=
  match h : datagram.pack [] (q.dueAttempts elapsed) with
  | none => isFalse (fun hall => by
    obtain ⟨ws, hws, -⟩ := hall
    cases h.symm.trans hws)
  | some ws => decidable_of_iff (∀ x ∈ q.dueAttempts elapsed, ∃ w ∈ ws, w.ask = x.ask) (by
      constructor
      · intro hall
        exact ⟨ws, h, hall⟩
      · rintro ⟨ws', hws, hall⟩
        cases h.symm.trans hws
        exact hall)

def Querier.MonitorsFit (q : Querier n k) : Prop :=
  ((q.smonsActive.map (fun c => (askBytes (plainLabels (q.smons c).fqst, tAny)).length)).sum ≤ dataMax - headerSize)

section outcome

/-- The entries after the call, when these monitors have had their rounds. -/
structure Outcome (q : Querier n k) (elapsed : Nat) (st : Sched n k) (done : List (Fin k)) : Prop where
  arecs : ∀ a, (q.arecs a).Advances (st.q.arecs a) ↔ a ∈ q.arecsActive ∧ (q.arecs a).asks elapsed = true
  sinsts : ∀ s, (q.sinsts s).Advances (st.q.sinsts s) ↔
    (∃ c ∈ done, s ∈ q.left elapsed c) ∧ (q.sinsts s).asks elapsed = true

theorem outcome_arecs (hq : q.Held) (h₁ : runAll (arecSched elapsed) q.arecsActive q.start = some st₁)
    (hlater : st.q.arecs a = { st₁.q.arecs a with sinsts := (st.q.arecs a).sinsts }) :
    (q.arecs a).Advances (st.q.arecs a) ↔ a ∈ q.arecsActive ∧ (q.arecs a).asks elapsed = true := by
  have hpass := arecPass_start hq h₁
  rw [hlater]
  by_cases ha : a ∈ q.arecsActive
  · exact (hpass.advances a ha).trans ⟨fun hasks => ⟨ha, hasks⟩, fun hasks => hasks.2⟩
  · have hsame := (arecPass_leads h₁).q.others a ha
    rw [hsame]
    exact ⟨fun hadv => absurd hadv (ARec.not_advances rfl rfl), fun hasks => absurd hasks.1 ha⟩

theorem outcome_sinsts {done cs : List (Fin k)} (hpass : ArecPass q.arecsActive elapsed q.start st₁)
    (hturns : MonitorTurns done cs elapsed st₁ st₂) (hlater : st.q.sinsts = st₂.q.sinsts) :
    (q.sinsts s).Advances (st.q.sinsts s) ↔ (∃ c ∈ done, s ∈ q.left elapsed c) ∧ (q.sinsts s).asks elapsed = true := by
  rw [hlater]
  unfold ServiceInstance.Advances
  by_cases hs : ∃ c ∈ done, s ∈ q.left elapsed c
  · obtain ⟨c, hc, hmem⟩ := hs
    have hpercent := (hturns.turned c hc s (by rw [hpass.left c]; exact hmem)).ttlPercent
    rw [hpass.kept hmem] at hpercent
    rw [hpercent]
    constructor
    · rintro ⟨hpos, hhalf⟩
      refine ⟨⟨c, hc, hmem⟩, ?_⟩
      by_contra hasks
      rw [if_neg hasks] at hhalf
      omega
    · rintro ⟨-, hasks⟩
      refine ⟨?_, if_pos hasks⟩
      have hfive := of_decide_eq_true (Bool.and_eq_true_iff.mp hasks).2
      omega
  · have hsame : (st₂.q.sinsts s).ttlPercent = (q.sinsts s).ttlPercent := by
      rw [hturns.others s]
      · exact hpass.loses.percent s
      · intro c hc hmem
        rw [hpass.left c] at hmem
        exact hs ⟨c, hc, hmem⟩
    rw [hsame]
    exact ⟨fun hadv => absurd hadv.2 (by omega), fun hex => absurd hex.1 hs⟩

/-- What `prepare_query` does: all that is due is packed into the message, or the message is given
up at the question of a monitor. -/
theorem prepareQuery_outcome (hq : q.Held) (hs : q.Spelled) (hnames : ∀ c ∈ q.smonsActive, Spelled (q.smons c).fqst)
    (h : prepareQuery elapsed q = some st) :
    ∃ done rest, q.smonsActive = done ++ rest ∧ Outcome q elapsed st done ∧
      ((rest = [] ∧ ∃ ws, datagram.pack [] (q.dueAttempts elapsed) = some ws ∧ st.q.tx.Questions (ws.map Attempt.ask) ∧
          st.ret ≠ -1 ∧ (ws ≠ [] → st.ret = 1)) ∨
        (st.ret = -1 ∧ ∃ c more, rest = c :: more ∧
          datagram.pack [] (q.arecsActive.flatMap (fun a => (q.arecs a).attempts elapsed) ++
            (done.flatMap (fun c => q.round elapsed c (q.left elapsed c)) ++
              (q.smons c).attempts elapsed)) = none)) := by
  obtain ⟨st₁, st₂, all, h₁, h₂, hend⟩ := prepareQuery_ends h
  have hpass := arecPass_start hq h₁
  have hactive : st₁.q.smonsActive = q.smonsActive := (arecPass_leads h₁).q.monitors
  have hheld : st₁.q.Held := Effects.held (arecPass_effects h₁) hq
  obtain ⟨ws₁, hpack₁, hw₁⟩ := hpass.packs [] ⟨packs_mdnsQueryInit q.tx, Int.le_refl 0⟩ hs.arecs
  have hpack₁ : datagram.pack [] (q.arecsActive.flatMap (fun a => (q.arecs a).attempts elapsed)) = some ws₁ := hpack₁
  rw [hactive] at h₂
  obtain ⟨done, rest, hsplit, hturns, hall, hnot⟩ := queryMonitors_rounds hq.owners.onNodup hheld h₂ hw₁
    (fun c hc => hpass.spelledAt hq hs (hnames c hc))
  have hleads := (queryMonitors_leads h₂).1
  -- the second pass changes neither A records nor instances
  have hlater : st.q.sinsts = st₂.q.sinsts ∧ ∃ b, Proceeds [] b st₂.q st.q := by
    rcases hend with ⟨-, rfl⟩ | ⟨-, -, rfl⟩ | ⟨-, -, rfl⟩
    · exact ⟨rfl, 0, .refl _⟩
    · exact ⟨rfl, 0, .refl _⟩
    · obtain ⟨b, hanswers⟩ := answerMonitors_leads st₂.q.smonsActive st₂
      exact ⟨(answerMonitors_frame st₂.q.smonsActive st₂).1, b, hanswers.q⟩
  obtain ⟨hsinsts, b, hproceeds⟩ := hlater
  refine ⟨done, rest, hsplit, ⟨fun a => ?_, fun s => outcome_sinsts hpass hturns hsinsts⟩, ?_⟩
  · refine outcome_arecs hq h₁ ?_
    rw [hproceeds.others a (not_mem_nil), hleads.q.others a (not_mem_nil)]
  rcases hend with ⟨hfalse, rfl⟩ | ⟨htrue, hzero, rfl⟩ | ⟨htrue, hzero, rfl⟩
  · obtain ⟨-, c, more, hrest, hnone⟩ := hnot hfalse
    refine .inr ⟨rfl, c, more, hrest, ?_⟩
    have hattempts : (st₁.q.smons c).attempts elapsed = (q.smons c).attempts elapsed := by
      rw [hpass.loses.smons c]
      rfl
    rw [Box.pack_append, hpack₁, bind_some, ← hpass.rounds, ← hattempts]
    exact hnone
  · obtain ⟨hnil, ws, hpack, hw, -⟩ := hall htrue
    refine .inl ⟨hnil, ws, ?_, hw.tx.questions (hw.tx.noAnswers q), by omega, ?_⟩
    · unfold Querier.dueAttempts
      rw [Box.pack_append, hpack₁, bind_some, ← hpass.rounds]
      exact hpack
    · intro hne
      have hpos := length_pos_iff.mpr hne
      have hret := hw.ret
      omega
  · obtain ⟨hnil, ws, hpack, hw, -⟩ := hall htrue
    have hmons : st₂.q.smonsActive = q.smonsActive := hleads.q.monitors.trans hactive
    have hroom : headerSize + (ws.flatMap (fun x => askBytes x.ask)).length ≤ dataMax := by
      have hfits := hw.tx.fits
      rw [load_datagram] at hfits
      have hbox : datagram.room = dataMax - headerSize := rfl
      have hle : headerSize ≤ dataMax := by decide
      omega
    have hnodup : st₂.q.smonsActive.Nodup := hmons ▸ hq.owners.onNodup
    have hanswers := answerMonitors_answers hnodup rfl (fun _ _ => rfl) (hw.tx.noAnswers st₂.q) hroom
    obtain ⟨b', hleads'⟩ := answerMonitors_leads st₂.q.smonsActive st₂
    refine .inl ⟨hnil, ws, ?_, hw.tx.questions hanswers, ?_, ?_⟩
    · unfold Querier.dueAttempts
      rw [Box.pack_append, hpack₁, bind_some, ← hpass.rounds]
      exact hpack
    · dsimp only
      split <;> decide
    · intro hne
      have hpos := length_pos_iff.mpr hne
      have hret := hw.ret
      have hmore := hleads'.ret
      exact if_pos (by omega)

end outcome

section spent
variable {x : Attempt} {r : ARec n} {i : ServiceInstance n k} {mon : ServiceMonitor n}

theorem ARec.mem_attempts : x ∈ r.attempts elapsed ↔ r.asks elapsed = true ∧ x = ⟨(plainLabels r.fqdn, tA), false⟩ := by
  unfold ARec.attempts
  split <;> simp [*]

theorem ServiceInstance.mem_attempts :
    x ∈ i.attempts elapsed ↔ i.asks elapsed = true ∧ x = ⟨(plainLabels i.fqsn, tAny), false⟩ := by
  unfold ServiceInstance.attempts
  split <;> simp [*]

theorem ServiceMonitor.must_of_mem_attempts (hx : x ∈ mon.attempts elapsed) : x.must = true := by
  unfold ServiceMonitor.attempts at hx
  split at hx
  · rw [mem_singleton.mp hx]
  · cases hx

theorem mem_dueAttempts (hx : x ∈ q.dueAttempts elapsed) :
    (∃ a ∈ q.arecsActive, (q.arecs a).asks elapsed = true ∧
      x.ask = (plainLabels (q.arecs a).fqdn, tA)) ∨ x.must = true ∨
      ∃ c ∈ q.smonsActive, ∃ s ∈ q.left elapsed c, (q.sinsts s).asks elapsed = true ∧
        x.ask = (plainLabels (q.sinsts s).fqsn, tAny) := by
  rcases mem_append.mp hx with hx | hx
  · obtain ⟨a, ha, hx⟩ := mem_flatMap.mp hx
    obtain ⟨hasks, rfl⟩ := ARec.mem_attempts.mp hx
    exact .inl ⟨a, ha, hasks, rfl⟩
  · obtain ⟨c, hc, hx⟩ := mem_flatMap.mp hx
    rcases mem_append.mp hx with hx | hx
    · exact .inr (.inl (ServiceMonitor.must_of_mem_attempts hx))
    · obtain ⟨s, hs, hx⟩ := mem_flatMap.mp hx
      obtain ⟨hasks, rfl⟩ := ServiceInstance.mem_attempts.mp hx
      exact .inr (.inr ⟨c, hc, s, hs, hasks, rfl⟩)

theorem due_of_arec (ha : a ∈ q.arecsActive) (hasks : (q.arecs a).asks elapsed = true) :
    ⟨(plainLabels (q.arecs a).fqdn, tA), false⟩ ∈ q.dueAttempts elapsed :=
  mem_append_left _ (mem_flatMap.mpr ⟨a, ha, ARec.mem_attempts.mpr ⟨hasks, rfl⟩⟩)

theorem due_of_sinst (hc : c ∈ q.smonsActive) (hs : s ∈ q.left elapsed c) (hasks : (q.sinsts s).asks elapsed = true) :
    ⟨(plainLabels (q.sinsts s).fqsn, tAny), false⟩ ∈ q.dueAttempts elapsed :=
  mem_append_right _ (mem_flatMap.mpr ⟨c, hc, mem_append_right _
    (mem_flatMap.mpr ⟨s, hs, ServiceInstance.mem_attempts.mpr ⟨hasks, rfl⟩⟩)⟩)

variable (hq : q.Held) (hs : q.Spelled) (hnames : ∀ c ∈ q.smonsActive, Spelled (q.smons c).fqst)
  (h : prepareQuery elapsed q = some st)
include hq hs hnames h

theorem noneSpent_of_allAsked (hall : q.AllAsked elapsed) : NoneSpent q st := by
  obtain ⟨done, rest, hsplit, hout, hend⟩ := prepareQuery_outcome hq hs hnames h
  obtain ⟨ws, hpack, hasked⟩ := hall
  rcases hend with ⟨rfl, ws', hpack', hqs, hret, hone⟩ | ⟨-, c, more, rfl, hnone⟩
  · cases hpack.symm.trans hpack'
    -- a question that is due is among those of the message
    have hin : ∀ x ∈ q.dueAttempts elapsed, st.q.tx.Asking x.ask ∧ st.ret = 1 := by
      intro x hx
      obtain ⟨w, hw, heq⟩ := hasked x hx
      exact ⟨⟨_, hqs, List.mem_map.mpr ⟨w, hw, heq⟩⟩, hone (ne_nil_of_mem hw)⟩
    refine ⟨fun a hadv => ?_, fun s hadv => ?_, fun hfail => absurd hfail hret⟩
    · obtain ⟨ha, hasks⟩ := (hout.arecs a).mp hadv
      exact hin _ (due_of_arec ha hasks)
    · obtain ⟨⟨c, hc, hmem⟩, hasks⟩ := (hout.sinsts s).mp hadv
      exact hin _ (due_of_sinst (by rw [hsplit, append_nil]; exact hc) hmem hasks)
  · -- the packing has come to an end
    exfalso
    unfold Querier.dueAttempts at hpack
    rw [hsplit, flatMap_append, flatMap_cons] at hpack
    unfold Querier.round at hpack hnone
    rw [append_assoc, ← append_assoc (List.flatMap _ done), ← append_assoc, Box.pack_append, hnone] at hpack
    cases hpack

theorem asks_of_failed (hfit : q.MonitorsFit) (hret : st.ret = -1) :
    (∃ a, (q.arecs a).Advances (st.q.arecs a)) ∨ ∃ s, (q.sinsts s).Advances (st.q.sinsts s) := by
  obtain ⟨done, rest, hsplit, hout, hend⟩ := prepareQuery_outcome hq hs hnames h
  rcases hend with ⟨-, -, -, -, hne, -⟩ | ⟨-, c, more, rfl, hnone⟩
  · exact absurd hret hne
  by_contra hcon
  obtain ⟨hnoarec, hnosinst⟩ := not_or.mp hcon
  have harecs : q.arecsActive.flatMap (fun a => (q.arecs a).attempts elapsed) = [] := by
    refine flatMap_eq_nil_iff.mpr (fun a ha => ?_)
    unfold ARec.attempts
    rw [if_neg]
    exact fun hasks => hnoarec ⟨a, (hout.arecs a).mpr ⟨ha, hasks⟩⟩
  have hrounds : done.flatMap (fun c => q.round elapsed c (q.left elapsed c)) =
      done.flatMap (fun c => (q.smons c).attempts elapsed) := by
    refine flatMap_congr (fun c hc => ?_)
    have hnil : (q.left elapsed c).flatMap (fun s => (q.sinsts s).attempts elapsed) = [] := by
      refine flatMap_eq_nil_iff.mpr (fun s hs => ?_)
      unfold ServiceInstance.attempts
      rw [if_neg]
      exact fun hasks => hnosinst ⟨s, (hout.sinsts s).mpr ⟨⟨c, hc, hs⟩, hasks⟩⟩
    unfold Querier.round
    rw [hnil, append_nil]
  have hload : ∀ cs : List (Fin k), datagram.load (cs.flatMap (fun c => (q.smons c).attempts elapsed)) ≤
      (cs.map (fun c => (askBytes (plainLabels (q.smons c).fqst, tAny)).length)).sum := by
    intro cs
    induction cs with
    | nil => exact Nat.le_refl _
    | cons d cs ih =>
      rw [flatMap_cons, Box.load_append, map_cons, sum_cons]
      refine Nat.add_le_add ?_ ih
      unfold ServiceMonitor.attempts
      split
      · rw [Box.load_cons]
        exact Nat.le_refl _
      · exact Nat.zero_le _
  have hone : (q.smons c).attempts elapsed = [c].flatMap (fun c => (q.smons c).attempts elapsed) :=
    (flatMap_singleton ..).symm
  rw [harecs, nil_append, hrounds, hone, ← flatMap_append] at hnone
  have hfits : datagram.load (([] : List Attempt)) +
    datagram.load ((done ++ [c]).flatMap (fun c => (q.smons c).attempts elapsed)) ≤
      datagram.room := by
    have hle := hload (done ++ [c])
    unfold Querier.MonitorsFit at hfit
    rw [hsplit, ← singleton_append, ← append_assoc, map_append, sum_append] at hfit
    have hzero : datagram.load ([] : List Attempt) = 0 := rfl
    have hbox : datagram.room = dataMax - headerSize := rfl
    omega
  rw [Box.pack_of_load_le hfits] at hnone
  cases hnone

theorem allAsked_of_noneSpent (hfit : q.MonitorsFit) (hspent : NoneSpent q st) : q.AllAsked elapsed := by
  have hfailed := asks_of_failed hq hs hnames h hfit
  obtain ⟨done, rest, hsplit, hout, hend⟩ := prepareQuery_outcome hq hs hnames h
  rcases hend with ⟨rfl, ws, hpack, hqs, -, -⟩ | ⟨hret, -⟩
  · rw [append_nil] at hsplit
    have hin : ∀ x, st.q.tx.Asking x → ∃ w ∈ ws, w.ask = x := by
      rintro x ⟨xs, hxs, hx⟩
      rw [hxs.unique hqs] at hx
      exact List.mem_map.mp hx
    refine ⟨ws, hpack, fun x hx => ?_⟩
    rcases mem_dueAttempts hx with ⟨a, ha, hasks, hask⟩ | hmust | ⟨c, hc, s, hmem, hasks, hask⟩
    · rw [hask]
      exact hin _ (hspent.arecs a ((hout.arecs a).mpr ⟨ha, hasks⟩)).1
    · exact ⟨x, (Box.pack_mem hpack).2 x hx hmust, rfl⟩
    · rw [hask]
      exact hin _ (hspent.sinsts s ((hout.sinsts s).mpr ⟨⟨c, hsplit ▸ hc, hmem⟩, hasks⟩)).1
  · exfalso
    rcases hfailed hret with ⟨a, hadv⟩ | ⟨s, hadv⟩
    · exact absurd ((hspent.arecs a hadv).2.symm.trans hret) (by decide)
    · exact absurd ((hspent.sinsts s hadv).2.symm.trans hret) (by decide)

end spent

section runs

/-- As long as the SRV records take no A record away, `prepare_query` returns. No attempt is lost if the names of the
monitors are written out and every question that is due finds room or is in the message already; and if the
questions of the monitors alone fit, attempts are lost in all other cases. -/
theorem Run.noneSpent_iff (h : Run fitting q) (elapsed : Nat) : ∃ st, prepareQuery elapsed q = some st ∧
    ((∀ c ∈ q.smonsActive, Spelled (q.smons c).fqst) ∧ q.AllAsked elapsed → NoneSpent q st) ∧
      ((∀ c ∈ q.smonsActive, Spelled (q.smons c).fqst) → q.MonitorsFit → NoneSpent q st → q.AllAsked elapsed) := by
  obtain ⟨st, hst⟩ := prepareQuery_returns elapsed (h.sound fitting_hosts).linked
  exact ⟨st, hst, fun hall => noneSpent_of_allAsked h.held h.spelled hall.1 hst hall.2,
    fun hnames hfit hspent => allAsked_of_noneSpent h.held h.spelled hnames hst hfit hspent⟩

set_option maxRecDepth 100000 in
theorem noneSpent_announced : ∃ (q : Querier 16 4) (st : Sched 16 4), Run fitting q ∧ prepareQuery 192000 q = some st ∧
    (q.arecs 15).Advances (st.q.arecs 15) ∧ NoneSpent q st := by
  have h : ((runAll (guardedStep fitting 60) [.monitor httpType, .prepare 0, announce 65 1] (queryLaunch 16 4)).map
      (fun q => decide (q.smonsActive = [3] ∧ (q.smons 3).fqst = httpType ∧ q.AllAsked 192000 ∧
      ((prepareQuery 192000 q).map (fun st =>
        decide ((q.arecs 15).state ≠ .querying ∧ (st.q.arecs 15).state = .querying))) =
        some true))) = some true := by
    decide +kernel
  obtain ⟨q, hq, hall⟩ := map_eq_some_iff.mp h
  obtain ⟨hmons, hname, hasked, hcall⟩ := of_decide_eq_true hall
  have hrun : Run fitting q := run_of_runAll hq
  obtain ⟨st, hst, hspent, -⟩ := hrun.noneSpent_iff 192000
  rw [hst, map_some, some.injEq] at hcall
  exact ⟨q, st, hrun, hst, .inl (of_decide_eq_true hcall), hspent ⟨spelled_of_httpType hmons hname, hasked⟩⟩

def longDomain (x : UInt8) : Mem :=
  dnamePutLabel (replicate 63 x) ++ dnamePutLabel (replicate 63 x) ++ dnamePutLabel (replicate 63 x) ++
    dnamePutLabel (replicate 40 x) ++ [0]

def longType (x : UInt8) : Mem := httpType.dropLast ++ longDomain x

def longPtrs : Event :=
  receive [wireRecord httpType tPtr 120 ([1, 97] ++ longType 97), wireRecord [0xC0, 12] tPtr 120 [1, 98, 0xC0, 42],
    wireRecord [0xC0, 12] tPtr 120 [1, 99, 0xC0, 42]]

set_option maxRecDepth 100000 in
/-- The questions of three monitors and three instances with long names do not fit into a packet.
When there is no room for the last monitor, the query is dropped, but the instances have counted
their questions. -/
theorem attempts_spent :
    ∃ (q : Querier 16 4) (st : Sched 16 4), Run fitting q ∧ prepareQuery 0 q = some st ∧ st.ret = -1 ∧
    ((q.sinsts 15).ttlPercent = 20 ∧ (st.q.sinsts 15).ttlPercent = 10) ∧ ¬ NoneSpent q st := by
  have h : ((runAll (guardedStep fitting 60) [.monitor (longType 97), .monitor (longType 98), .monitor (longType 99),
      .monitor httpType, longPtrs] (queryLaunch 16 4)).map (fun q => decide ((prepareQuery 0 q).map (fun st =>
        decide (st.ret = -1 ∧ (q.sinsts 15).ttlPercent = 20 ∧ (st.q.sinsts 15).ttlPercent = 10)) =
          some true))) = some true := by
    decide +kernel
  obtain ⟨q, hq, hall⟩ := map_eq_some_iff.mp h
  obtain ⟨st, hst, hend⟩ := map_eq_some_iff.mp (of_decide_eq_true hall)
  obtain ⟨hret, hbefore, hafter⟩ := of_decide_eq_true hend
  refine ⟨q, st, run_of_runAll hq, hst, hret, ⟨hbefore, hafter⟩, fun hspent => ?_⟩
  have hadv : (q.sinsts 15).Advances (st.q.sinsts 15) := by
    unfold ServiceInstance.Advances
    rw [hbefore, hafter]
    decide
  exact absurd ((hspent.sinsts 15 hadv).2.symm.trans hret) (by decide)

end runs

end Mdns
