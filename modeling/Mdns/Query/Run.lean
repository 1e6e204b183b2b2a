import Mdns.Query.Response

/-!
# The runs of the querier

A run is any sequence of events from `query_launch` on. It can be held to a condition on the states
in which its TXT, SRV and A records are processed.
-/
namespace Mdns
open Lib List Option

variable {n k : Nat}

section guards
variable {H I : Type}

/-- Conditions on the state before a TXT or SRV record is processed for a slot and before an A
record is processed for a cached one. -/
structure Guard (n k : Nat) (H : Type := List (Fin n)) (I : Type := Unit) where
  txt : Nat → Message → Querier n k H I → Resource → Fin n → Bool := fun _ _ _ _ _ => true
  srv : Nat → Message → Querier n k H I → Resource → Fin n → Bool := fun _ _ _ _ _ => true
  a : Message → Querier n k H I → Resource → Fin n → Bool := fun _ _ _ _ => true

section
variable (G : Guard n k H I) (fuel : Nat)

def Guard.txtMet (m : Message) (q : Querier n k H I) (r : Resource) : Bool :=
  match sinstOf fuel q m r with
  | some (some s) => G.txt fuel m q r s
  | _ => true

def Guard.srvMet (m : Message) (q : Querier n k H I) (r : Resource) : Bool :=
  match sinstOf fuel q m r with
  | some (some s) => G.srv fuel m q r s
  | _ => true

def Guard.aMet (m : Message) (q : Querier n k H I) (r : Resource) : Bool :=
  match findArec fuel q m r.name with
  | some (some a) => G.a m q r a
  | _ => true

/-- `update_service_cache`, as far as the condition is met. -/
def guardedCache [AList n H I] (elapsed : Nat) (q : Querier n k H I) (m : Message) : Option (Querier n k H I) :=
  if m.qr then do
    let (q, m) ← runAll (ptrStep fuel elapsed) m.ptrs (q, m)
    let q ← runAll (guarded (G.txtMet fuel m) (txtStep fuel elapsed m)) m.txts q
    let q ← runAll (guarded (G.srvMet fuel m) (srvStep fuel elapsed m)) m.srvs q
    runAll (guarded (G.aMet fuel m) (aStep fuel m)) m.as q
  else some q

def guardedStep [AList n H I] (q : Querier n k H I) (ev : Event) : Option (Querier n k H I) :=
  match ev with
  | .response data mlen elapsed => match mdnsParseMessage fuel data mlen with
    | .ok m => guardedCache G fuel elapsed q m
    | .error .err => some q
    | .error .hang => none
  | .monitor fqst => step fuel q (.monitor fqst)
  | .unmonitor fqst => step fuel q (.unmonitor fqst)
  | .prepare elapsed => step fuel q (.prepare elapsed)

end

/-- The states that are reached when every record meets the condition. -/
inductive Run [AList n H I] (G : Guard n k H I) : Querier n k H I → Prop where
  | launch : Run G (queryLaunch n k H I)
  | step {fuel : Nat} {q q' : Querier n k H I} {ev : Event} : Run G q → guardedStep G fuel q ev = some q' → Run G q'

end guards

theorem guardedCache_eq_some {G : Guard n k} {fuel elapsed : Nat} {q q' : Querier n k} {m : Message}
    (h : guardedCache G fuel elapsed q m = some q') :
    (m.qr = false ∧ q' = q) ∨ ∃ q₁ m₁ q₂ q₃, m.qr = true ∧ runAll (ptrStep fuel elapsed) m.ptrs (q, m) = some (q₁, m₁) ∧
      runAll (guarded (G.txtMet fuel m₁) (txtStep fuel elapsed m₁)) m₁.txts q₁ = some q₂ ∧
      runAll (guarded (G.srvMet fuel m₁) (srvStep fuel elapsed m₁)) m₁.srvs q₂ = some q₃ ∧
      runAll (guarded (G.aMet fuel m₁) (aStep fuel m₁)) m₁.as q₃ = some q' := by
  unfold guardedCache at h
  split at h
  · next hqr =>
    simp only [bind_eq_bind, bind_eq_some_iff] at h
    obtain ⟨⟨q₁, m₁⟩, hptr, q₂, htxt, q₃, hsrv, ha⟩ := h
    exact .inr ⟨q₁, m₁, q₂, q₃, hqr, hptr, htxt, hsrv, ha⟩
  · next hqr =>
    cases h
    exact .inl ⟨Bool.eq_false_iff.mpr hqr, rfl⟩

theorem step_of_guardedStep {G : Guard n k} {fuel : Nat} {q q' : Querier n k} {ev : Event}
    (h : guardedStep G fuel q ev = some q') : step fuel q ev = some q' := by
  cases ev with
  | monitor _ => exact h
  | unmonitor _ => exact h
  | prepare _ => exact h
  | response data mlen elapsed =>
    simp only [guardedStep, step] at h ⊢
    cases hm : mdnsParseMessage fuel data mlen with
    | ok m =>
      simp only [hm] at h
      rcases guardedCache_eq_some h with ⟨hqr, rfl⟩ | ⟨q₁, m₁, q₂, q₃, hqr, hptr, htxt, hsrv, ha⟩
      · simp [updateServiceCache, hqr]
      · have htxt' := runAll_mono (fun _ _ _ hs => (guarded_eq_some.mp hs).2) htxt
        have hsrv' := runAll_mono (fun _ _ _ hs => (guarded_eq_some.mp hs).2) hsrv
        have ha' := runAll_mono (fun _ _ _ hs => (guarded_eq_some.mp hs).2) ha
        simp [updateServiceCache, hqr, hptr, htxt', hsrv', ha']
    | error e =>
      rw [hm] at h
      cases e with
      | err => exact h
      | hang => cases h

/-- A strict policy lets no slot abandon a host that nobody else refers to. -/
def policy (strict : Prop) : Policy n k := fun r s a => strict → r.Keeps s a

theorem policy_self {strict : Prop} (r : Registry (Fin n) (Fin n) (Fin k) Mem) (s a : Fin n) (h : r.host s = some a) :
    policy strict r s a := by
  intro _ old hold _
  rw [h] at hold
  exact (some.inj hold).symm

structure Querier.Sound (strict : Prop) (q : Querier n k) : Prop where
  linked : q.reg.Linked q.smonsActive
  named : q.reg.Named WfName
  told : Registry.Told plainLabels q.smonsActive q.reg
  tight : strict → q.reg.Tight

variable {strict : Prop} {q q' : Querier n k} {c : Fin k} {fuel elapsed : Nat}

theorem Advances.sound (h : Advances (policy strict) q.smonsActive q q') (hq : q.Sound strict) : q'.Sound strict := by
  have hsub := List.Subset.refl q.smonsActive
  refine ⟨?_, h.moves.named hq.named, ?_, fun hs => ?_⟩
  · rw [h.active]
    exact h.moves.linked hq.linked hsub
  · rw [h.active]
    exact h.moves.told hq.linked hsub hq.told
  · exact h.moves.tight (fun _ _ _ hm => hm hs) hq.linked hsub (hq.tight hs)

theorem sound_queryLaunch (n k : Nat) : (queryLaunch n k).Sound strict where
  linked := {
    freeNodup := nodup_reverse.mpr (nodup_finRange n)
    members := inverts_empty _ (fun s hs => hs (by simp [Querier.reg, queryLaunch]))
    referrers := inverts_empty _ (fun s hs => hs (by simp [Querier.reg, queryLaunch]))
    owned := fun s hs => absurd (by simp [Querier.reg, queryLaunch]) hs
    hosted := fun s _ hs => absurd (by simp [Querier.reg, queryLaunch]) hs
    hosts := ⟨nodup_nil, nodup_reverse.mpr (nodup_finRange n), by simp [Querier.reg, queryLaunch]⟩
    owners := ⟨nodup_nil, nodup_reverse.mpr (nodup_finRange k), by simp [Querier.reg, queryLaunch]⟩ }
  named := ⟨fun s hs => absurd (by simp [Querier.reg, queryLaunch]) hs, nofun⟩
  told := ⟨fun _ _ => ⟨false, rfl⟩, nofun, fun s _ hs => absurd (by simp [Querier.reg, queryLaunch]) hs, nofun, nofun,
    nofun, nofun⟩
  tight _ := nofun

theorem reg_begin (q : Querier n k) (c : Fin k) (free : List (Fin k)) (fqst : Mem) :
    ({ q with smonsFree := free, smonsActive := c :: q.smonsActive, sessions := q.sessions + 1 }.setSmon
      c { fqst, refreshPeriod := 1000, session := q.sessions }).reg = q.reg.begin c free fqst := by
  have h1 := field_update (ServiceMonitor.sinsts) q.smons c { fqst, refreshPeriod := 1000, session := q.sessions }
  have h2 := field_update (ServiceMonitor.session) q.smons c { fqst, refreshPeriod := 1000, session := q.sessions }
  have h3 := field_update (ServiceMonitor.fqst) q.smons c { fqst, refreshPeriod := 1000, session := q.sessions }
  simp only [Querier.reg, Querier.setSmon, h1, h2, h3, Registry.begin]

theorem addService_sound {fqst : Mem} (hq : q.Sound strict) (h : addService fuel q fqst = some q') :
    q'.Sound strict := by
  unfold addService at h
  simp only [bind_eq_bind, bind_eq_some_iff] at h
  obtain ⟨found, -, h⟩ := h
  cases found with
  | some _ =>
    cases h
    exact hq
  | none =>
    cases hfree : q.smonsFree with
    | nil =>
      simp only [hfree] at h
      cases h
      exact hq
    | cons c free =>
      simp only [hfree] at h
      cases h
      refine ⟨?_, ?_, ?_, fun hs => ?_⟩ <;> rw [reg_begin]
      · exact hq.linked.begin hfree
      · exact ⟨hq.named.slots, hq.named.hosts⟩
      · exact hq.told.begin hq.linked hfree (List.Subset.refl _)
      · exact hq.tight hs

theorem runAll_cleanupSinst (mayMove : Policy n k) {own live : List (Fin k)} {slots : List (Fin n)}
    (h : runAll cleanupSinst slots q = some q') (hslots : (q.smons c).sinsts = slots) (hl : q.reg.Linked own)
    (hlive : live ⊆ own) (hc : c ∉ live) : Advances mayMove live q q' ∧ (q'.smons c).sinsts = [] := by
  induction slots generalizing q with
  | nil =>
    cases h
    exact ⟨.refl _, hslots⟩
  | cons s slots ih =>
    obtain ⟨q₁, hs, h⟩ := runAll_cons_eq_some.mp h
    have hcl := cleaned_of_cleanupSinst hs
    have hmem : s ∈ q.reg.members c := by
      show s ∈ (q.smons c).sinsts
      rw [hslots]
      exact mem_cons_self ..
    obtain ⟨hfree, howner⟩ := (hl.members.mem_iff c s).mp hmem
    have hh : Advances mayMove live q q₁ := by
      refine (hcl.silent hfree (fun d hd ho => ?_)).advances
      have hdc : c = d := some.inj (howner.symm.trans ho)
      exact absurd (hdc ▸ hd) hc
    have hrest : (q₁.smons c).sinsts = slots := by
      have hm : q₁.reg.members c = unlink q.reg.owner q.reg.members s c := by rw [hcl.reg]; rfl
      have hms : q.reg.members c = s :: slots := hslots
      rw [unlink_apply, if_pos howner, hms, erase_cons_head] at hm
      exact hm
    obtain ⟨hadv, hnil⟩ := ih h hrest (hh.moves.linked hl hlive)
    exact ⟨hh.trans hadv, hnil⟩

theorem closeMonitor_sound (hq : q.Sound strict) (h : closeMonitor q c = some q') : q'.Sound strict := by
  unfold closeMonitor at h
  simp only [bind_eq_bind, bind_eq_some_iff, Option.pure_def, some.injEq] at h
  obtain ⟨active, hact, q₁, hrun, rfl⟩ := h
  obtain ⟨hc, rfl⟩ := slistRemove_eq_some.mp hact
  have hsub : q.smonsActive.erase c ⊆ q.smonsActive := erase_subset
  have hnot : c ∉ q.smonsActive.erase c := fun hmem => (hq.linked.owners.onNodup.mem_erase_iff.mp hmem).1 rfl
  have hl : ({ q with smonsActive := q.smonsActive.erase c } : Querier n k).reg.Linked q.smonsActive := hq.linked
  obtain ⟨hadv, hnil⟩ := runAll_cleanupSinst (policy strict) hrun rfl hl hsub hnot
  have hl₁ := hadv.moves.linked hl hsub
  have hactive : q₁.smonsActive = q.smonsActive.erase c := hadv.active
  refine ⟨?_, ?_, ?_, fun hs => ?_⟩
  · show (q₁.reg.finish c).Linked q₁.smonsActive
    rw [hactive]
    exact hl₁.finish hc hnil
  · have hn := hadv.moves.named hq.named
    exact ⟨hn.slots, hn.hosts⟩
  · show Registry.Told plainLabels q₁.smonsActive (q₁.reg.finish c)
    rw [hactive]
    exact (hadv.moves.told hl hsub (hq.told.mono hsub)).finish
  · exact hadv.moves.tight (fun _ _ _ hm => hm hs) hl hsub (hq.tight hs)

theorem removeService_sound {fqst : Mem} (hq : q.Sound strict) (h : removeService fuel q fqst = some q') :
    q'.Sound strict := by
  unfold removeService at h
  split at h
  · exact runAll_keeps (fun _ _ _ hs hI => closeMonitor_sound hI hs) h hq
  · simp only [bind_eq_bind, bind_eq_some_iff] at h
    obtain ⟨found, -, h⟩ := h
    cases found with
    | none =>
      cases h
      exact hq
    | some c => exact closeMonitor_sound hq h

section
variable {G : Guard n k}

/-- A condition under which every SRV record finds a place for its host. -/
def Guard.Hosts (G : Guard n k) (strict : Prop) : Prop :=
  ∀ fuel m q r s, G.srv fuel m q r s = true → SrvOk (policy strict) fuel q s m r

theorem srvStep_sound {m : Message} {r : Resource} (hG : G.Hosts strict) (hq : q.Sound strict)
    (h : guarded (G.srvMet fuel m) (srvStep fuel elapsed m) q r = some q') : q'.Sound strict := by
  obtain ⟨hmet, hs⟩ := guarded_eq_some.mp h
  refine (srvStep_advances hq.linked (fun s hinst => ?_) hs).sound hq
  rw [Guard.srvMet, hinst] at hmet
  exact hG fuel m q r s hmet

theorem guardedCache_sound {m : Message} (hG : G.Hosts strict) (hq : q.Sound strict)
    (h : guardedCache G fuel elapsed q m = some q') : q'.Sound strict := by
  rcases guardedCache_eq_some h with ⟨-, rfl⟩ | ⟨q₁, m₁, q₂, q₃, -, hptr, htxt, hsrv, ha⟩
  · exact hq
  · have h₁ : q₁.Sound strict :=
      runAll_keeps (I := fun st : Querier n k × Message => st.1.Sound strict)
        (fun _ _ _ hs hI => ((takesPtr_of_ptrStep hs).advances hI.linked hI.named).sound hI) hptr hq
    have h₂ : q₂.Sound strict :=
      runAll_keeps (fun _ _ _ hs hI => (txtStep_advances hI.linked (guarded_eq_some.mp hs).2).sound hI) htxt h₁
    have h₃ : q₃.Sound strict := runAll_keeps (fun _ _ _ hs hI => srvStep_sound hG hI hs) hsrv h₂
    exact runAll_keeps (fun _ _ _ hs hI =>
      (aStep_advances policy_self hI.linked (guarded_eq_some.mp hs).2).sound hI) ha h₃

theorem guardedStep_sound {ev : Event} (hG : G.Hosts strict) (hq : q.Sound strict)
    (h : guardedStep G fuel q ev = some q') : q'.Sound strict := by
  cases ev with
  | monitor fqst => exact addService_sound hq h
  | unmonitor fqst => exact removeService_sound hq h
  | prepare elapsed =>
    obtain ⟨st, hst, rfl⟩ := map_eq_some_iff.mp h
    exact (prepareQuery_advances policy_self hq.linked hst).sound hq
  | response data mlen elapsed =>
    unfold guardedStep at h
    dsimp only at h
    split at h
    · exact guardedCache_sound hG hq h
    · cases h
      exact hq
    · cases h

theorem Run.sound (hG : G.Hosts strict) (h : Run G q) : q.Sound strict := by
  induction h with
  | launch => exact sound_queryLaunch n k
  | step _ hs ih => exact guardedStep_sound hG ih hs

end

end Mdns
