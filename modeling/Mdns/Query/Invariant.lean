import Mdns.Query.Run

/-!
# The invariants of the cache

The lists and the back pointers agree as long as no SRV record takes an instance's A record away,
which `update_srv` does when the A records have run out. No A record leaks as long as no SRV record
moves the last instance of one to another.
-/
namespace Mdns
open Lib List Option

variable {n k : Nat}

section guards
variable (fuel : Nat) (m : Message) (q : Querier n k) (r : Resource) (s : Fin n)

/-- When the record wants a new A record and none is free, the instance has none to lose. -/
def srvFits {H I : Type} (fuel : Nat) (m : Message) (q : Querier n k H I) (r : Resource) (s : Fin n) : Bool :=
  decide (r.ttl ≠ 0 → findArec fuel q m (srvTarget r) = some none → q.arecsFree = [] → (q.sinsts s).arec = none)

/-- An instance that is alone on the list of its A record stays there. -/
def srvStays : Bool :=
  decide (r.ttl ≠ 0 → ∀ a, (q.sinsts s).arec = some a → (q.arecs a).sinsts.erase s = [] →
    findArec fuel q m (srvTarget r) = some (some a))

end guards

def fitting {H I : Type} : Guard n k H I := { srv := srvFits }

def settled : Guard n k := { srv := fun fuel m q r s => srvFits fuel m q r s && srvStays fuel m q r s }

theorem fitting_hosts : (fitting : Guard n k).Hosts False := by
  intro fuel m q r s h
  exact ⟨of_decide_eq_true h, fun _ _ _ _ => False.elim, fun _ _ _ _ _ _ => False.elim⟩

theorem settled_hosts : (settled : Guard n k).Hosts True := by
  intro fuel m q r s h
  obtain ⟨hfits, hstays⟩ := Bool.and_eq_true_iff.mp h
  have hstays := of_decide_eq_true hstays
  refine ⟨of_decide_eq_true hfits, fun a httl hfind _ _ old hold hsole => ?_,
    fun a spare _ httl hfind hfree _ old hold hsole => ?_⟩
  · have := hstays httl old hold hsole
    rw [hfind] at this
    exact (some.inj (some.inj this)).symm
  · by_contra hne
    have hsole : (Function.update q.reg.referrers a [] old).erase s = [] := hsole
    rw [Function.update_of_ne hne] at hsole
    have := hstays httl old hold hsole
    rw [hfind] at this
    cases this

theorem run_of_runAll {H I : Type} [AList n H I] {G : Guard n k H I} {fuel : Nat} {evs : List Event}
    {q : Querier n k H I}
    (h : runAll (guardedStep G fuel) evs (queryLaunch n k H I) = some q) : Run G q :=
  runAll_keeps (fun _ _ _ hs hr => .step hr hs) h .launch

section crossReference
variable {q : Querier n k}

/-- Every slot is in one place, and the lists of the A records are those of the instances that
point to them. -/
structure Querier.CrossReferenced (q : Querier n k) : Prop where
  place : ∀ s,
    (q.sinstsFree.count s = 1 ∧ ∀ c ∈ q.smonsActive, s ∉ (q.smons c).sinsts) ∨
    (s ∉ q.sinstsFree ∧ ∃ c ∈ q.smonsActive, (q.sinsts s).smon = some c ∧ (q.smons c).sinsts.count s = 1 ∧
      ∀ d ∈ q.smonsActive, s ∈ (q.smons d).sinsts → d = c)
  free : ∀ s ∈ q.sinstsFree, ∀ a, s ∉ (q.arecs a).sinsts
  cached : ∀ s, s ∉ q.sinstsFree → ∀ a, s ∈ (q.arecs a).sinsts ↔ (q.sinsts s).arec = some a
  active : ∀ s, s ∉ q.sinstsFree → ∀ a, s ∈ (q.arecs a).sinsts → a ∈ q.arecsActive

theorem Querier.Sound.crossReferenced {strict : Prop} (h : q.Sound strict) : q.CrossReferenced := by
  have hmem := h.linked.members.mem_iff
  have href := h.linked.referrers.mem_iff
  refine ⟨fun s => ?_, fun s hs a ha => ((href a s).mp ha).1 hs, fun s hs a => ?_, fun s hs a ha => ?_⟩
  · by_cases hs : s ∈ q.sinstsFree
    · exact .inl ⟨count_eq_one_of_mem h.linked.freeNodup hs, fun c _ hc => ((hmem c s).mp hc).1 hs⟩
    · obtain ⟨c, hc, ho⟩ := h.linked.owned s hs
      have hin := (hmem c s).mpr ⟨hs, ho⟩
      refine .inr ⟨hs, c, hc, ho, count_eq_one_of_mem (h.linked.members.nodup c) hin, fun d _ hd => ?_⟩
      exact some.inj (((hmem d s).mp hd).2.symm.trans ho)
  · exact (href a s).trans (and_iff_right hs)
  · exact h.linked.hosted s a hs ((href a s).mp ha).2

/-- In every run whose SRV records all find a place for their host, the lists and the back
pointers agree. -/
theorem run_crossReferenced (h : Run fitting q) : q.CrossReferenced :=
  (h.sound fitting_hosts).crossReferenced

def wireRecord (name : Mem) (type ttl : Nat) (rdata : Mem) : Mem :=
  name ++ [0, UInt8.ofNat type, 0, 1, 0, 0, 0, UInt8.ofNat ttl, 0, UInt8.ofNat rdata.length] ++ rdata

def packetOf (records : List Mem) : Mem :=
  [0, 0, 0x84, 0, 0, 0, 0, UInt8.ofNat records.length, 0, 0, 0, 0] ++ records.flatten

def receive (records : List Mem) : Event :=
  let packet : Mem := [0, 0, 0x84, 0, 0, 0, 0, UInt8.ofNat records.length, 0, 0, 0, 0] ++ records.flatten
  .response packet packet.length 1

/-- `_http._tcp.local`, and in a packet that begins with the PTR record of its instance `a` the
SRV records of `a`; the name of `a` is at offset 40. -/
def httpType : Mem := [5, 95, 104, 116, 116, 112, 4, 95, 116, 99, 112, 5, 108, 111, 99, 97, 108, 0]
def httpPtr (ttl : Nat) : Mem := wireRecord httpType tPtr ttl [1, 97, 0xC0, 12]
def httpSrv (host : UInt8) : Mem := wireRecord [0xC0, 40] tSrv 120 [0, 0, 0, 0, 0, 80, 1, host, 0]
def hostA (host : UInt8) (ip : UInt8) : Mem := wireRecord [1, host, 0] tA 240 [10, 0, 0, ip]

/-- An announcement of `a` at a host of one letter. -/
def announce (host : UInt8) (ip : UInt8) : Event := receive [httpPtr 120, httpSrv host, hostA host ip]

/-- SRV records that name one host after the other, from `B` to `Q`. -/
def manyHosts : Event :=
  receive (httpPtr 120 :: (List.range 16).map (fun i => httpSrv (UInt8.ofNat (81 - i))))

set_option maxRecDepth 100000 in
theorem run_crossReferenced_announced :
    ∃ q : Querier 16 4, Run fitting q ∧ q.arecsActive.length = 1 ∧ q.CrossReferenced := by
  have h : ((runAll (guardedStep fitting 60) [.monitor httpType, announce 65 1, .prepare 1000]
      (queryLaunch 16 4)).map (fun q => q.arecsActive.length)) = some 1 := by decide +kernel
  obtain ⟨q, hq, hone⟩ := map_eq_some_iff.mp h
  exact ⟨q, run_of_runAll hq, hone, run_crossReferenced (run_of_runAll hq)⟩

set_option maxRecDepth 100000 in
/-- With sixteen A records in use, the SRV record for one more host leaves the instance on the
list of an A record that it no longer points to. -/
theorem crossReferenced_fails :
    ∃ q, runAll (step 60) [.monitor httpType, announce 65 1, manyHosts] (queryLaunch 16 4) = some q ∧
      ¬ q.CrossReferenced := by
  have h : ((runAll (step 60) [.monitor httpType, announce 65 1, manyHosts] (queryLaunch 16 4)).map (fun q =>
      decide (15 ∉ q.sinstsFree ∧ (q.sinsts 15).arec = none ∧ ∃ a, 15 ∈ (q.arecs a).sinsts))) = some true := by
    decide +kernel
  obtain ⟨q, hq, hbad⟩ := map_eq_some_iff.mp h
  obtain ⟨hused, hnone, a, ha⟩ := of_decide_eq_true hbad
  refine ⟨q, hq, fun hc => ?_⟩
  rw [hc.cached 15 hused a, hnone] at ha
  cases ha

end crossReference

section eviction
variable {q q' : Querier n k} {live : List (Fin k)} {s a : Fin n}

theorem slistRemove_of_mem {α : Type} [DecidableEq α] {x : α} {l : List α} (h : x ∈ l) :
    slistRemove x l = some (l.erase x) := if_pos h

theorem leaveHost_returns (h : ∀ a, (q.sinsts s).arec = some a → s ∈ (q.arecs a).sinsts ∧ a ∈ q.arecsActive) :
    ∃ q', leaveHost q s = some q' := by
  unfold leaveHost
  cases ha : (q.sinsts s).arec with
  | none => exact ⟨q, rfl⟩
  | some a =>
    obtain ⟨hs, hactive⟩ := h a ha
    simp only [leaveArec_eq, slistRemove_of_mem hs, bind_eq_bind, bind_some]
    split
    · have hrem : slistRemove a (q.setArec a { q.arecs a with sinsts := (q.arecs a).sinsts.erase s }).arecsActive =
          some (q.arecsActive.erase a) := slistRemove_of_mem hactive
      rw [hrem]
      exact ⟨_, rfl⟩
    · exact ⟨_, rfl⟩

theorem cleanupSinst_returns (hl : q.reg.Held live) (hs : s ∉ q.sinstsFree) : ∃ q', cleanupSinst q s = some q' := by
  obtain ⟨c, -, ho⟩ := hl.owned s hs
  have hmem : s ∈ (q.smons c).sinsts := (hl.members.mem_iff c s).mpr ⟨hs, ho⟩
  have hsmon : (q.sinsts s).smon = some c := ho
  obtain ⟨q₁, hq₁⟩ := leaveHost_returns (s := s)
    (q := q.setSmon c { q.smons c with sinsts := (q.smons c).sinsts.erase s }) (fun a ha => hl.hosted s a hs ha)
  simp only [cleanupSinst, hsmon, slistRemove_of_mem hmem, hq₁, bind_eq_bind, bind_some]
  exact ⟨_, rfl⟩

theorem alertSinst_lostArec_returns (hl : q.reg.Linked live) (hs : s ∉ q.sinstsFree) :
    ∃ q', alertSinst .lostArec q s = some q' ∧ q'.reg.referrers = (q.reg.release s).referrers := by
  obtain ⟨q₁, hq₁⟩ := cleanupSinst_returns hl.held hs
  have hcl := cleaned_of_cleanupSinst hq₁
  obtain ⟨c, -, ho⟩ := hl.owned s hs
  have hsmon : (q₁.sinsts s).smon = some c := by
    rw [hcl.entry]
    exact ho
  obtain ⟨q₂, hcb, hrefs⟩ : ∃ q₂, callbackOn q₁ s .disappeared = some q₂ ∧ q₂.reg.referrers = q₁.reg.referrers :=
    ⟨_, callbackOn_eq_some.mpr ⟨c, hsmon, rfl⟩, rfl⟩
  have hrefs : q₂.reg.referrers = (q.reg.release s).referrers := by rw [hrefs, hcl.reg]
  cases hst : (q.sinsts s).state with
  | init =>
    refine ⟨q₁, ?_, by rw [hcl.reg]⟩
    simp [alertSinst, updateSinst, sinstChanges, sinstReact, hst, hq₁]
  | clean =>
    refine ⟨q₂, ?_, hrefs⟩
    simp only [alertSinst, updateSinst, sinstChanges, sinstReact, hst, hq₁, hcb, bind_eq_bind,
      bind_some, Option.pure_def, map_some]
  | updating =>
    refine ⟨q₂, ?_, hrefs⟩
    simp only [alertSinst, updateSinst, sinstChanges, sinstReact, hst, hq₁, hcb, bind_eq_bind,
      bind_some, Option.pure_def, map_some]

theorem runAll_lostArec_returns (hl : q.reg.Linked live) (a : Fin n) :
    ∃ q', runAll (alertSinst .lostArec) (q.arecs a).sinsts q = some q' ∧ (q'.arecs a).sinsts = [] := by
  -- what is left of the list is what is still to be alerted
  have hstep : ∀ s slots (q : Querier n k), (q.arecs a).sinsts = s :: slots ∧ q.reg.Linked live →
      ∃ q', alertSinst .lostArec q s = some q' ∧ (q'.arecs a).sinsts = slots ∧ q'.reg.Linked live := by
    rintro s slots q ⟨hslots, hl⟩
    have hrefs : q.reg.referrers a = s :: slots := hslots
    obtain ⟨hs, hhost⟩ := (hl.referrers.mem_iff a s).mp (by rw [hrefs]; exact mem_cons_self ..)
    obtain ⟨q₁, hq₁, hrefs₁⟩ := alertSinst_lostArec_returns hl hs
    have hh : Handles (policy False) live q s q₁ := alertSinst_handles policy_self (.inl rfl) hl hs hhost hq₁
    refine ⟨q₁, hq₁, ?_, hh.moves.linked hl (List.Subset.refl _)⟩
    have hm : q₁.reg.referrers a = unlink q.reg.host q.reg.referrers s a := congrFun hrefs₁ a
    rw [unlink_apply, if_pos hhost, hrefs, erase_cons_head] at hm
    exact hm
  obtain ⟨q', hq', hnil, -⟩ := runAll_returns
    (I := fun slots (q : Querier n k) => (q.arecs a).sinsts = slots ∧ q.reg.Linked live) hstep ⟨rfl, hl⟩
  exact ⟨q', hq', hnil⟩

theorem evictArec_returns (hl : q.reg.Linked live) (a : Fin n) :
    ∃ q', evictArec q a = some q' ∧ (q'.arecs a).sinsts = [] := by
  obtain ⟨q₁, hq₁, hnil⟩ := runAll_lostArec_returns hl a
  refine ⟨_, by simp only [evictArec_eq, hq₁, bind_eq_bind, bind_some, if_pos hnil]; rfl, ?_⟩
  rw [setArec_self]
  exact hnil

theorem evictArec_frees (hq : q.Sound True) (h : evictArec q a = some q') (hnil : (q'.arecs a).sinsts = []) :
    a ∈ q'.arecsFree := by
  have hs := (evictArec_advances policy_self hq.linked h).sound hq
  exact (hs.linked.hosts.off_iff a).mpr (fun hactive => hs.tight trivial a hactive hnil)

end eviction

section returns
variable {q : Querier n k} {live : List (Fin k)} {s a : Fin n} {c : Fin k} {st : Sched n k}

theorem applyElapsed_returns (elapsed : Nat) (hl : q.reg.Linked live) (hs : s ∉ q.sinstsFree)
    (ho : (q.sinsts s).smon = some c) :
    ∃ q' ret, applyElapsed q s elapsed = some (q', ret) ∧ (q'.sinsts s).smon = some c := by
  have haged : (q.setSinst s ((q.sinsts s).age elapsed)).reg = q.reg := reg_setSinst ⟨rfl, rfl, rfl, rfl⟩
  unfold applyElapsed
  dsimp only
  split_ifs
  · have hheld : (q.setSinst s ((q.sinsts s).age elapsed)).reg.Held live := haged ▸ hl.held
    obtain ⟨q₁, hq₁⟩ := cleanupSinst_returns hheld hs
    refine ⟨q₁, -1, by rw [hq₁]; rfl, ?_⟩
    rw [(cleaned_of_cleanupSinst hq₁).entry]
    show ((q.setSinst s _).sinsts s).smon = some c
    rw [setSinst_self]
    exact ho
  · cases mdnsAddQuestion q.tx ((q.sinsts s).age elapsed).fqsn tAny cIn with
    | none => exact ⟨_, _, rfl, by rw [setSinst_self]; exact ho⟩
    | some tx => exact ⟨_, _, rfl, by rw [setSinst_self]; exact ho⟩
  · exact ⟨_, _, rfl, by rw [setSinst_self]; exact ho⟩

theorem updateSinst_ask_returns (elapsed : Nat) (hl : q.reg.Linked live) (hs : s ∉ q.sinstsFree) :
    ∃ q' ret, updateSinst 0 q s .addQuestions elapsed = some (q', ret) := by
  obtain ⟨c, -, ho⟩ := hl.owned s hs
  obtain ⟨q₁, ret, hage, hsmon⟩ := applyElapsed_returns elapsed hl hs ho
  obtain ⟨q₂, hcb⟩ : ∃ q₂, callbackOn q₁ s .disappeared = some q₂ := ⟨_, callbackOn_eq_some.mpr ⟨c, hsmon, rfl⟩⟩
  suffices hreact : ∃ q' ret, sinstReact q s .addQuestions 0 elapsed = some (q', ret) by
    obtain ⟨q', ret, hreact⟩ := hreact
    exact ⟨q', _, by simp only [updateSinst, sinstChanges, bind_eq_bind, bind_some, hreact]; rfl⟩
  unfold sinstReact
  simp only [hage, bind_eq_bind, bind_some, hcb]
  cases (q.sinsts s).state with
  | init => exact ⟨_, _, rfl⟩
  | clean =>
    dsimp only
    split_ifs
    all_goals exact ⟨_, _, rfl⟩
  | updating =>
    dsimp only
    split_ifs
    all_goals exact ⟨_, _, rfl⟩

theorem sinstScheds_return (elapsed : Nat) (hl : st.q.reg.Linked live) (c : Fin k) :
    ∃ st', runAll (sinstSched elapsed) (st.q.smons c).sinsts st = some st' ∧ st'.q.reg.Linked live := by
  have hstep : ∀ s slots (st : Sched n k),
    ((s :: slots).Nodup ∧ st.q.reg.Linked live ∧ ∀ t ∈ s :: slots, t ∉ st.q.sinstsFree) →
      ∃ st', sinstSched elapsed st s = some st' ∧ slots.Nodup ∧ st'.q.reg.Linked live ∧ ∀ t ∈ slots,
        t ∉ st'.q.sinstsFree := by
    rintro s slots st ⟨hnodup, hl, hused⟩
    obtain ⟨hnot, hnodup⟩ := nodup_cons.mp hnodup
    obtain ⟨hs, hused⟩ := forall_mem_cons.mp hused
    obtain ⟨q', ret, hu⟩ := updateSinst_ask_returns elapsed hl hs
    obtain ⟨st', hst'⟩ : ∃ st', sinstSched elapsed st s = some st' := ⟨_, by rw [sinstSched, hu]; rfl⟩
    have hh : Handles (policy False) live st.q s st'.q := sinstSched_handles hl hs hst'
    refine ⟨st', hst', hnodup, hh.moves.linked hl (List.Subset.refl _), fun t ht => ?_⟩
    rw [hh.freed t (fun hts => hnot (hts ▸ ht))]
    exact hused t ht
  obtain ⟨st', hst', -, hl', -⟩ :=
    runAll_returns (I := fun slots (st : Sched n k) => slots.Nodup ∧ st.q.reg.Linked live ∧
    ∀ t ∈ slots, t ∉ st.q.sinstsFree) hstep
    ⟨hl.members.nodup c, hl, fun t ht => ((hl.members.mem_iff c t).mp ht).1⟩
  exact ⟨st', hst', hl'⟩

theorem queryMonitors_returns (elapsed : Nat) (cs : List (Fin k)) (hl : st.q.reg.Linked live) :
    ∃ res, queryMonitors elapsed cs st = some res := by
  induction cs generalizing st with
  | nil => exact ⟨_, rfl⟩
  | cons c cs ih =>
    obtain ⟨-, hreg⟩ := refreshMonitor_reg elapsed st c
    unfold queryMonitors
    split
    · exact ⟨_, rfl⟩
    · next st₁ st₂ heq =>
      rw [heq] at hreg
      obtain ⟨hreg, -⟩ := hreg st₂ rfl
      have hl₂ : st₂.q.reg.Linked live := hreg ▸ hl
      obtain ⟨st₃, h₃, hl₃⟩ := sinstScheds_return elapsed hl₂ c
      rw [h₃]
      exact ih hl₃

theorem updateArecAdd_returns (elapsed : Nat) (hl : q.reg.Linked live) (a : Fin n) :
    ∃ q' ret, updateArecAdd q a elapsed = some (q', ret) := by
  have haged : (q.setArec a ((q.arecs a).age elapsed)).reg = q.reg := reg_setArec rfl rfl
  have hl : (q.setArec a ((q.arecs a).age elapsed)).reg.Linked live := haged ▸ hl
  obtain ⟨q', hevict, -⟩ := evictArec_returns hl a
  unfold updateArecAdd
  simp only [hevict]
  cases (q.arecs a).state with
  | init => exact ⟨_, _, rfl⟩
  | querying =>
    dsimp only
    split_ifs
    all_goals exact ⟨_, _, rfl⟩
  | resolved =>
    dsimp only
    split_ifs
    all_goals exact ⟨_, _, rfl⟩

/-- `prepare_query` returns as long as the lists and the back pointers agree. -/
theorem prepareQuery_returns (elapsed : Nat) (hl : q.reg.Linked live) : ∃ st, prepareQuery elapsed q = some st := by
  have hstep : ∀ a (as : List (Fin n)) (st : Sched n k), st.q.reg.Linked live →
      ∃ st', arecSched elapsed st a = some st' ∧ st'.q.reg.Linked live := by
    intro a _ st hl
    obtain ⟨q', ret, hadd⟩ := updateArecAdd_returns elapsed hl a
    obtain ⟨st', hst'⟩ : ∃ st', arecSched elapsed st a = some st' := ⟨_, by rw [arecSched, hadd]; rfl⟩
    exact ⟨st', hst', (arecSched_advances (@policy_self n k False) hl hst').moves.linked hl (List.Subset.refl _)⟩
  have hinit : ({ q with tx := mdnsQueryInit q.tx } : Querier n k).reg.Linked live := hl
  obtain ⟨st₁, h₁, hl₁⟩ := runAll_returns (l := q.arecsActive) (I := fun _ st => st.q.reg.Linked live)
    (s := (⟨{ q with tx := mdnsQueryInit q.tx }, 0, uint32Max⟩ : Sched n k)) hstep hinit
  obtain ⟨⟨st₂, all⟩, h₂⟩ := queryMonitors_returns elapsed st₁.q.smonsActive hl₁
  unfold prepareQuery
  simp only [h₁, h₂, bind_eq_bind, bind_some]
  split_ifs
  all_goals exact ⟨_, rfl⟩

end returns

section leak
variable {q : Querier n k}

/-- No A record is lost: each is in use or free, those in use are referred to, and eviction frees
them. -/
structure Querier.NoLeak (q : Querier n k) : Prop where
  place : ∀ a, (q.arecsActive.count a = 1 ∧ a ∉ q.arecsFree) ∨ (q.arecsFree.count a = 1 ∧ a ∉ q.arecsActive)
  referenced : ∀ a ∈ q.arecsActive, ∃ s, s ∉ q.sinstsFree ∧ (q.sinsts s).arec = some a
  evicted : ∀ a, ∃ q', evictArec q a = some q' ∧ a ∈ q'.arecsFree
  bounded : q.arecsActive.length ≤ ((List.finRange n).filter (· ∉ q.sinstsFree)).length

theorem Querier.Sound.noLeak (h : q.Sound True) : q.NoLeak := by
  have hhosts := h.linked.hosts
  refine ⟨fun a => ?_, fun a ha => ?_, fun a => ?_, ?_⟩
  · by_cases ha : a ∈ q.arecsActive
    · exact .inl ⟨count_eq_one_of_mem hhosts.onNodup ha, fun hoff => (hhosts.off_iff a).mp hoff ha⟩
    · exact .inr ⟨count_eq_one_of_mem hhosts.offNodup ((hhosts.off_iff a).mpr ha), ha⟩
  · obtain ⟨s, hs⟩ := exists_mem_of_ne_nil _ (h.tight trivial a ha)
    exact ⟨s, (h.linked.referrers.mem_iff a s).mp hs⟩
  · obtain ⟨q', hq', hnil⟩ := evictArec_returns h.linked a
    exact ⟨q', hq', evictArec_frees h hq' hnil⟩
  · exact (h.tight trivial).length_active_le h.linked (fun s _ => mem_finRange s)

/-- In every run whose SRV records leave no A record behind, none leaks. -/
theorem run_noLeak (h : Run settled q) : q.NoLeak := (h.sound settled_hosts).noLeak

set_option maxRecDepth 100000 in
theorem run_noLeak_announced : ∃ q : Querier 16 4, Run settled q ∧ q.arecsActive.length = 1 ∧ q.NoLeak := by
  have h : ((runAll (guardedStep settled 60) [.monitor httpType, announce 65 1, announce 65 2, .prepare 1000]
      (queryLaunch 16 4)).map (fun q => q.arecsActive.length)) = some 1 := by decide +kernel
  obtain ⟨q, hq, hone⟩ := map_eq_some_iff.mp h
  exact ⟨q, run_of_runAll hq, hone, run_noLeak (run_of_runAll hq)⟩

set_option maxRecDepth 100000 in
/-- An instance that moves from the host `A` to the host `B` leaves the A record of `A` in use,
with nobody that refers to it. -/
theorem noLeak_fails :
    ∃ q, runAll (step 60) [.monitor httpType, announce 65 1, announce 66 2] (queryLaunch 16 4) =
      some q ∧ ¬ q.NoLeak := by
  have h : ((runAll (step 60) [.monitor httpType, announce 65 1, announce 66 2] (queryLaunch 16 4)).map (fun q =>
      decide (∃ a ∈ q.arecsActive, ∀ s, (q.sinsts s).arec ≠ some a))) = some true := by decide +kernel
  obtain ⟨q, hq, hbad⟩ := map_eq_some_iff.mp h
  obtain ⟨a, ha, hnone⟩ := of_decide_eq_true hbad
  refine ⟨q, hq, fun hc => ?_⟩
  obtain ⟨s, -, hs⟩ := hc.referenced a ha
  exact hnone s hs

end leak

section callbacks
variable {l : List Status}

/-- The callbacks of a session for the instance of a name, in order, without `MDNS_CACHE_FULL`. -/
def Querier.callbacks (q : Querier n k) (session : Nat) (name : Labels) : List Status :=
  ((q.log.filter (fun r => r.session = session ∧ plainLabels r.fqsn = name ∧ r.status ≠ .cacheFull)).map
    Report.status).reverse

theorem callbacks_eq (q : Querier n k) (σ : Nat) (x : Labels) :
    q.callbacks σ x = (Registry.told plainLabels q.reg.log σ x).reverse := by
  simp only [Querier.callbacks, Registry.told, Querier.reg, List.filter_map, List.map_map]
  rfl

/-- In every run whose SRV records all find a place for their host, the callbacks for each
session and name are an initial part of rounds, and only a ready instance is discovered. -/
theorem run_callbacks_rounds {q : Querier n k} (h : Run fitting q) :
    (∀ session name, ∃ rest, Rounds (q.callbacks session name ++ rest)) ∧
    ∀ r ∈ q.log, r.status = .discovered → r.ready = true := by
  have hq := h.sound fitting_hosts
  refine ⟨fun σ x => ?_, fun r hr hst => ?_⟩
  · obtain ⟨b, hb⟩ := hq.told.phases σ x
    rw [callbacks_eq]
    exact rounds_of_phase hb
  · exact hq.told.ready ⟨r.session, r.fqsn, r.status, r.ready⟩ (List.mem_map.mpr ⟨r, hr, rfl⟩) hst

/-- `a._http._tcp.local`. -/
def httpName : Labels := [[97], [95, 104, 116, 116, 112], [95, 116, 99, 112], [108, 111, 99, 97, 108]]

set_option maxRecDepth 100000 in
theorem run_callbacks_rounds_announced :
    ∃ q : Querier 16 4, Run fitting q ∧ q.callbacks 0 httpName = [.discovered, .updated, .disappeared, .discovered] ∧
      (∀ session name, ∃ rest, Rounds (q.callbacks session name ++ rest)) ∧
      ∀ r ∈ q.log, r.status = .discovered → r.ready = true := by
  have h : ((runAll (guardedStep fitting 60) [.monitor httpType, announce 65 1, announce 66 2, receive [httpPtr 0],
      announce 65 1] (queryLaunch 16 4)).map (fun q => q.callbacks 0 httpName)) =
      some [.discovered, .updated, .disappeared, .discovered] := by decide +kernel
  obtain ⟨q, hq, hcalls⟩ := map_eq_some_iff.mp h
  exact ⟨q, run_of_runAll hq, hcalls, run_callbacks_rounds (run_of_runAll hq)⟩

theorem Rounds.head {st : Status} (h : Rounds (st :: l)) : st = .discovered := by
  cases h with
  | cons _ _ => rfl

theorem not_rounds_disappeared_updated : ¬ Rounds (.discovered :: .disappeared :: .updated :: l) := by
  intro h
  generalize hw : Status.discovered :: .disappeared :: .updated :: l = w at h
  cases h with
  | nil => cases hw
  | @cons us rest hus hrest =>
    have hw := (List.cons.inj hw).2
    cases us with
    | nil =>
      rw [nil_append] at hw
      rw [← (List.cons.inj hw).2] at hrest
      cases hrest.head
    | cons u us =>
      have hu := (List.cons.inj hw).1
      rw [← hu] at hus
      cases hus _ (mem_cons_self ..)

set_option maxRecDepth 100000 in
/-- The instance that was left on the list of the A record of `P` is updated with it after its
own goodbye. -/
theorem callbacks_rounds_fails :
    ∃ q, runAll (step 60) [.monitor httpType, announce 65 1, manyHosts, receive [httpPtr 0], receive [hostA 80 2]]
      (queryLaunch 16 4) = some q ∧ ¬ ∃ rest, Rounds (q.callbacks 0 httpName ++ rest) := by
  have h : ((runAll (step 60) [.monitor httpType, announce 65 1, manyHosts, receive [httpPtr 0], receive [hostA 80 2]]
      (queryLaunch 16 4)).map (fun q => q.callbacks 0 httpName)) = some [.discovered, .disappeared, .updated] := by
    decide +kernel
  obtain ⟨q, hq, hcalls⟩ := map_eq_some_iff.mp h
  refine ⟨q, hq, fun ⟨rest, hrounds⟩ => ?_⟩
  rw [hcalls] at hrounds
  exact not_rounds_disappeared_updated hrounds

end callbacks

end Mdns
