import Mdns.Query.Ask
import Mathlib.Logic.Relation

/-!
# What an event is made of

The single effects that the querier has on its state. Every event is a sequence of them, so what
each effect keeps is kept by every run.
-/
namespace Mdns
open Lib Relation Option

variable {n k : Nat}

inductive SinstChange : ServiceInstance n k → ServiceInstance n k → Prop where
  | blank (i : ServiceInstance n k) (c : Fin k) : SinstChange i { smon := some c }
  | named (i : ServiceInstance n k) {j : ServiceInstance n k} {fuel : Nat} {c : Fin k} {m : Message} {off : Nat} :
      copyServinfo fuel { smon := some c } m off = some (some j) → SinstChange i j
  | heard (i : ServiceInstance n k) (ptrTtl : Nat) : SinstChange i { i with ptrTtl }
  | texted {i j : ServiceInstance n k} {fuel : Nat} {p : Mem} {r : Resource} {ret : Int} :
      updateTxt fuel i p r = some (j, ret) → SinstChange i j
  | ported (i : ServiceInstance n k) (port : Nat) : SinstChange i { i with port }
  | hosted (i : ServiceInstance n k) (r : ARec n) (a : Fin n) : SinstChange i { takeAddress i r with arec := some a }
  | homeless (i : ServiceInstance n k) : SinstChange i { i with arec := none }
  | served (i : ServiceInstance n k) (r : Resource) (elapsed : Nat) : SinstChange i (srvTimes i r elapsed)
  | told (i : ServiceInstance n k) (state : SinstState) : SinstChange i { i with state }
  | ages (i : ServiceInstance n k) (elapsed : Nat) : SinstChange i (i.age elapsed)
  | asked (i : ServiceInstance n k) : 5 ≤ i.ttlPercent → SinstChange i i.reschedule
  | stale (i : ServiceInstance n k) : SinstChange i { i with hasSrv := false }
  | retired (i : ServiceInstance n k) : SinstChange i { i with nextRefresh := uint32Max }

inductive ArecChange : ARec n → ARec n → Prop where
  | fresh (r : ARec n) (fqdn : Mem) : ArecChange r { sinsts := [], fqdn }
  | listed (r : ARec n) (sinsts : List (Fin n)) : ArecChange r { r with sinsts }
  | addressed (r : ARec n) (ipaddr : Nat) : ArecChange r { r with ipaddr }
  | resolved (r : ARec n) : ArecChange r { r with state := .resolved }
  | timed (r : ARec n) (ttl : Nat) : ArecChange r
      { r with ttl := convertTtl ttl, nextRefresh := percent (convertTtl ttl) 80, ttlPercent := 10 }
  | ages (r : ARec n) (elapsed : Nat) : ArecChange r (r.age elapsed)
  | launched (r : ARec n) : ArecChange r r.launch
  | retried (r : ARec n) : 5 ≤ r.ttlPercent → ArecChange r r.retry
  | refreshed (r : ARec n) : ArecChange r r.refresh
  | retired (r : ARec n) : ArecChange r { r with nextRefresh := uint32Max }

inductive SmonChange : ServiceMonitor n → ServiceMonitor n → Prop where
  | listed (mon : ServiceMonitor n) (sinsts : List (Fin n)) : SmonChange mon { mon with sinsts }
  | due (mon : ServiceMonitor n) (offset : Nat) : SmonChange mon (mon.refresh offset)
  | waits (mon : ServiceMonitor n) (nextRefresh : Nat) : SmonChange mon { mon with nextRefresh }

/-- A monitor as `add_service` makes it. -/
def newMonitor (fqst : Mem) (session : Nat) : ServiceMonitor n := { fqst, refreshPeriod := 1000, session }

structure SamePlace (i j : ServiceInstance n k) : Prop where
  smon : i.smon = j.smon
  arec : i.arec = j.arec
  fqsn : i.fqsn = j.fqsn

/-- A single effect on the state. The first ones write values, the others also move an entry from
one list to another. New monitors have names for which `ok` holds. -/
inductive Effect (ok : Mem → Prop) (q : Querier n k) : Querier n k → Prop where
  | sends (tx : Message) : Effect ok q { q with tx }
  | reports (report : Report n) : Effect ok q { q with log := report :: q.log }
  | renews {s : Fin n} {i : ServiceInstance n k} : SinstChange (q.sinsts s) i → SamePlace i (q.sinsts s) →
      Effect ok q (q.setSinst s i)
  | resolves {a : Fin n} {r : ARec n} : ArecChange (q.arecs a) r → r.sinsts = (q.arecs a).sinsts →
      r.fqdn = (q.arecs a).fqdn → Effect ok q (q.setArec a r)
  | schedules {c : Fin k} {mon : ServiceMonitor n} : SmonChange (q.smons c) mon → mon.sinsts = (q.smons c).sinsts →
      mon.session = (q.smons c).session → mon.fqst = (q.smons c).fqst → Effect ok q (q.setSmon c mon)
  | cleans {s : Fin n} {q' : Querier n k} : cleanupSinst q s = some q' → Effect ok q q'
  | hosts {s a : Fin n} {q' : Querier n k} {ret : Int} : a ∈ q.arecsActive → Hosted q s a q' ret → Effect ok q q'
  | abandons (s : Fin n) : Effect ok q (q.setSinst s { q.sinsts s with arec := none })
  | enlists {a : Fin n} {free : List (Fin n)} {fuel src : Nat} {p fqdn : Mem} {copied : Int} :
      dnameCopy fuel p src = some (fqdn, copied) → q.arecsFree = a :: free →
      Effect ok q ({ q with arecsFree := free, arecsActive := a :: q.arecsActive }.setArec a { sinsts := [], fqdn })
  | blanks {s : Fin n} {free : List (Fin n)} (c : Fin k) : q.sinstsFree = s :: free →
      Effect ok q (q.setSinst s { smon := some c })
  | adopts {s : Fin n} {free : List (Fin n)} {c : Fin k} {i : ServiceInstance n k} {fuel : Nat}
      {m : Message} {off : Nat}
      (ptrTtl : Nat) : c ∈ q.smonsActive → findServiceInstance fuel q c m off = some none → q.sinstsFree = s :: free →
      copyServinfo fuel { smon := some c } m off = some (some i) →
      Effect ok q (({ q with sinstsFree := free }.setSmon c
        { q.smons c with sinsts := s :: (q.smons c).sinsts }).setSinst s
        { i with ptrTtl })
  | begins {c : Fin k} {free : List (Fin k)} {fuel : Nat} {fqst : Mem} :
      ok fqst → findServiceMonitor fuel q (.plain fqst) (some 0) = some none → q.smonsFree = c :: free →
      Effect ok q ({ q with smonsFree := free, smonsActive := c :: q.smonsActive, sessions := q.sessions + 1 }.setSmon c
        (newMonitor fqst q.sessions))
  | closes {c : Fin k} {q' : Querier n k} : closeMonitor q c = some q' → Effect ok q q'

abbrev Effects (ok : Mem → Prop) (q q' : Querier n k) : Prop := ReflTransGen (Effect ok) q q'

variable {ok : Mem → Prop} {q q₁ q' : Querier n k} {s a : Fin n} {c : Fin k} {fuel elapsed : Nat}

section instances
variable {m m' : Message} {r : Resource} {e : SinstEvent n} {changes ret : Int} {i : ServiceInstance n k}

theorem effects_setSinst (h : SinstChange (q.sinsts s) i) (hp : SamePlace i (q.sinsts s)) :
    Effects ok q (q.setSinst s i) := .single (.renews h hp)

theorem effects_callbackOn {status : Status} (h : callbackOn q s status = some q') : Effects ok q q' := by
  obtain ⟨d, -, rfl⟩ := callbackOn_eq_some.mp h
  exact .single (.reports _)

theorem effects_setState (q : Querier n k) (s : Fin n) (state : SinstState) : Effects ok q (q.setState s state) :=
  effects_setSinst (.told _ state) ⟨rfl, rfl, rfl⟩

theorem HostsSrv.effects (h : HostsSrv fuel q s m r q' ret) : Effects ok q q' := by
  cases h with
  | found hfind hh => exact .single (.hosts (findFirst_mem hfind).1 hh)
  | full _ _ => exact .single (.abandons s)
  | fresh _ hfree hcopy hh =>
    exact .head (.enlists hcopy hfree) (.single (.hosts (List.mem_cons_self ..) hh))

theorem TakesSrv.effects (h : TakesSrv fuel q s m r elapsed q' ret) : Effects ok q q' := by
  obtain ⟨-, q₁, moved, hh, rfl, -⟩ := h
  have hport : Effects ok q (q.setSinst s { q.sinsts s with port := srvPort m.data r }) :=
    effects_setSinst (.ported _ _) ⟨rfl, rfl, rfl⟩
  exact (hport.trans hh.effects).trans (effects_setSinst (.served _ r elapsed) ⟨rfl, rfl, rfl⟩)

theorem effects_asked (tx : Message) (hp : 5 ≤ (q.sinsts s).ttlPercent) :
    Effects ok q ({ q with tx }.setSinst s ((q.sinsts s).age elapsed).reschedule) := by
  have htx : Effects ok q { q with tx } := .single (.sends tx)
  have hage := htx.trans (effects_setSinst (q := { q with tx }) (s := s) (.ages _ elapsed) ⟨rfl, rfl, rfl⟩)
  have hself := setSinst_self { q with tx } s ((q.sinsts s).age elapsed)
  have hask := hage.tail (.renews (s := s) (i := ((q.sinsts s).age elapsed).reschedule)
    (by rw [hself]; exact .asked _ hp) (by rw [hself]; exact ⟨rfl, rfl, rfl⟩))
  rw [setSinst_setSinst] at hask
  exact hask

theorem Ages.effects (h : Ages q s elapsed q' ret) : Effects ok q q' := by
  have hage : Effects ok q (q.setSinst s ((q.sinsts s).age elapsed)) :=
    effects_setSinst (.ages _ elapsed) ⟨rfl, rfl, rfl⟩
  cases h with
  | waits _ => exact hage
  | @asks tx _ hp _ => exact effects_asked tx hp
  | crowded _ hp _ => exact effects_asked q.tx hp
  | expires _ _ hclean => exact hage.tail (.cleans hclean)

theorem Reacts.effects (h : Reacts q s changes elapsed e q') : Effects ok q q' := by
  cases h with
  | lost _ hclean => exact .single (.cleans hclean)
  | lostShown _ hclean hcb => exact .head (.cleans hclean) (effects_callbackOn hcb)
  | aged ha _ => exact (ages_of_applyElapsed ha).effects
  | @asked q₁ _ ha =>
    have hsrv : Effects ok q₁ (q₁.setSinst s { q₁.sinsts s with hasSrv := false }) :=
      effects_setSinst (.stale _) ⟨rfl, rfl, rfl⟩
    exact ((ages_of_applyElapsed ha).effects.trans hsrv).trans (effects_setState _ s .updating)
  | expired _ ha => exact (ages_of_applyElapsed ha).effects
  | expiredShown _ ha hcb => exact (ages_of_applyElapsed ha).effects.trans (effects_callbackOn hcb)
  | quiet _ => exact .refl
  | pending _ _ _ => exact effects_setState q s .updating
  | gone _ _ hcb => exact effects_callbackOn hcb
  | discovered _ _ _ hcb => exact (effects_callbackOn hcb).trans (effects_setState _ s .clean)
  | updated _ _ _ _ hcb => exact (effects_callbackOn hcb).trans (effects_setState _ s .clean)

theorem updateTxt_samePlace {j : ServiceInstance n k} {p : Mem} (h : updateTxt fuel i p r = some (j, ret)) :
    SamePlace j i := by
  rcases updateTxt_eq_some h with ⟨rfl, -⟩ | ⟨keyvals, raw, len, rfl, -⟩ <;> exact ⟨rfl, rfl, rfl⟩

theorem sinstChanges_effects (he : ∀ a, e = .got (.arec a) → a ∈ q.arecsActive)
    (h : sinstChanges fuel q s e elapsed = some (q', changes)) : Effects ok q q' := by
  unfold sinstChanges at h
  split at h
  · rcases updateSrv_eq_some h with ⟨-, hclean, -⟩ | htakes
    · exact .single (.cleans hclean)
    · exact htakes.effects
  · obtain ⟨i, txted, htxt, h⟩ := bind_pair_eq_some.mp h
    cases h
    exact effects_setSinst (.texted htxt) (updateTxt_samePlace htxt)
  · exact .single (.hosts (he _ rfl) (hosted_of_setArec h))
  · cases h
    exact .refl
  · cases h
    exact .refl

theorem updateSinst_effects (he : ∀ a, e = .got (.arec a) → a ∈ q.arecsActive)
    (h : updateSinst fuel q s e elapsed = some (q', ret)) : Effects ok q q' := by
  obtain ⟨q₁, changes, hc, hr⟩ := updateSinst_eq_some h
  exact (sinstChanges_effects he hc).trans hr.effects

end instances

section addresses
variable {m : Message} {r : Resource} {ret : Int}

theorem runAll_effects {σ α : Type} (view : σ → Querier n k) {f : σ → α → Option σ} {l : List α} {st st' : σ}
    (hstep : ∀ st x st', f st x = some st' → Effects ok (view st) (view st')) (h : runAll f l st = some st') :
    Effects ok (view st) (view st') :=
  runAll_keeps (I := fun st' => Effects ok (view st) (view st'))
    (fun st₁ x st₂ hx hI => hI.trans (hstep st₁ x st₂ hx)) h .refl

theorem alertLost_effects (h : alertSinst .lostArec q s = some q') : Effects ok q q' := by
  obtain ⟨⟨q₁, ret⟩, hu, rfl⟩ := map_eq_some_iff.mp h
  exact updateSinst_effects (fun _ he => by cases he) hu

theorem alertSinst_active (h : alertSinst (.got (.arec a)) q s = some q') : q'.arecsActive = q.arecsActive := by
  obtain ⟨q₂, changes, hc, hr⟩ := alertSinst_eq_some h
  have hactive : q₂.arecsActive = q.arecsActive := congrArg Registry.active (hosted_of_setArec hc).reg
  obtain ⟨-, -, hsame, -⟩ := hr.got_frame
  rw [hsame, hactive]

theorem alertAll_effects {l : List (Fin n)} (ha : a ∈ q.arecsActive)
    (h : runAll (alertSinst (.got (.arec a))) l q = some q') : Effects ok q q' := by
  have hboth : Effects ok q q' ∧ a ∈ q'.arecsActive := by
    refine runAll_keeps (I := fun q' => Effects ok q q' ∧ a ∈ q'.arecsActive) ?_ h ⟨.refl, ha⟩
    intro q₁ s q₂ hs hI
    have hactive := alertSinst_active hs
    obtain ⟨⟨q₃, ret⟩, hu, rfl⟩ := map_eq_some_iff.mp hs
    have hhere : ∀ b, (SinstEvent.got (.arec a) : SinstEvent n) = .got (.arec b) → b ∈ q₁.arecsActive := by
      intro b hb
      cases hb
      exact hI.2
    exact ⟨hI.1.trans (updateSinst_effects hhere hu), hactive ▸ hI.2⟩
  exact hboth.1

theorem evictArec_effects (h : evictArec q a = some q') : Effects ok q q' := by
  obtain ⟨q₁, h₁, -, rfl⟩ := evictArec_eq_some h
  have hall : Effects ok q q₁ := runAll_effects id (fun _ _ _ hs => alertLost_effects hs) h₁
  exact hall.tail (.resolves (.retired _) rfl rfl)

theorem alertIp_effects {ipaddr : Nat} (ha : a ∈ q.arecsActive) (h : alertIp q a ipaddr = some q') :
    Effects ok q q' := by
  rw [alertIp_eq] at h
  split at h
  · cases h
    exact .refl
  · have hset : Effects ok q (q.setArec a { q.arecs a with ipaddr }) :=
      .single (.resolves (.addressed _ ipaddr) rfl rfl)
    exact hset.trans (alertAll_effects ha h)

theorem updateArecRx_effects (ha : a ∈ q.arecsActive) (h : updateArecRx q a m r = some q') : Effects ok q q' := by
  rcases updateArecRx_eq_some h with ⟨-, h⟩ | ⟨-, q₁, h₁, rfl⟩
  · exact evictArec_effects h
  · have hset : Effects ok q (q.setArec a { q.arecs a with state := .resolved }) :=
      .single (.resolves (.resolved _) rfl rfl)
    exact (hset.trans (alertIp_effects ha h₁)).tail (.resolves (.timed _ r.ttl) rfl rfl)

theorem askArec_effects {i r : ARec n} (hi : ArecChange (q.arecs a) i) (hr : ArecChange i r)
    (hs : i.sinsts = (q.arecs a).sinsts) (hf : i.fqdn = (q.arecs a).fqdn) (hs' : r.sinsts = i.sinsts)
    (hf' : r.fqdn = i.fqdn) :
    Effects ok q (askArec q a r) := by
  have htx : Effects ok q { q with tx := (mdnsAddQuestion q.tx r.fqdn tA cIn).getD q.tx } := .single (.sends _)
  have hset := htx.tail (.resolves hi hs hf)
  have hself := setArec_self { q with tx := (mdnsAddQuestion q.tx r.fqdn tA cIn).getD q.tx } a i
  have hask := hset.tail (.resolves (a := a) (r := r) (by rw [hself]; exact hr) (by rw [hself]; exact hs')
    (by rw [hself]; exact hf'))
  rw [setArec_setArec] at hask
  exact hask

theorem ArecTurn.effects (h : ArecTurn q a elapsed q' ret) : Effects ok q q' := by
  have hage : Effects ok q (q.setArec a ((q.arecs a).age elapsed)) := .single (.resolves (.ages _ elapsed) rfl rfl)
  cases h with
  | launches _ =>
    exact askArec_effects (.listed _ (q.arecs a).sinsts) (.launched _) rfl rfl rfl rfl
  | waits _ _ => exact hage
  | retries _ _ hp => exact askArec_effects (.ages _ elapsed) (.retried _ hp) rfl rfl rfl rfl
  | refreshes _ _ => exact askArec_effects (.ages _ elapsed) (.refreshed _) rfl rfl rfl rfl
  | evicts _ _ _ hevict => exact hage.trans (evictArec_effects hevict)

end addresses

section events
variable {m m' : Message} {r : Resource} {st st' : Sched n k}

theorem sayGoodbye_effects (h : sayGoodbye q s = some q') : Effects ok q q' := by
  unfold sayGoodbye at h
  split at h
  · cases h
    exact .refl
  · exact effects_callbackOn h

theorem TakesPtr.effects {ptr : Resource} (h : TakesPtr fuel elapsed q m ptr q' m') : Effects ok q q' := by
  cases h with
  | ignored _ => exact .refl
  | goodbye _ _ _ hbye hclean => exact (sayGoodbye_effects hbye).tail (.cleans hclean)
  | renewed _ _ _ => exact effects_setSinst (.heard _ _) ⟨rfl, rfl, rfl⟩
  | failed _ _ hfree _ => exact .single (.blanks _ hfree)
  | adopted hmon hinst hfree hcopy => exact .single (.adopts _ (findFirst_mem hmon).1 hinst hfree hcopy)
  | unheard _ _ _ _ => exact .refl
  | overflowed _ _ _ _ hover =>
    rcases overflow_eq_some hover with rfl | ⟨report, -, -, -, rfl⟩
    · exact .refl
    · exact .single (.reports report)

theorem txtStep_effects (h : txtStep fuel elapsed m q r = some q') : Effects ok q q' := by
  rcases txtStep_eq_some h with ⟨-, rfl⟩ | ⟨s, ret, -, hu⟩
  · exact .refl
  · exact updateSinst_effects (fun _ he => by cases he) hu

theorem srvStep_effects (h : srvStep fuel elapsed m q r = some q') : Effects ok q q' := by
  rcases srvStep_eq_some h with ⟨-, rfl⟩ | ⟨s, ret, -, hu⟩
  · exact .refl
  · exact updateSinst_effects (fun _ he => by cases he) hu

theorem aStep_effects (h : aStep fuel m q r = some q') : Effects ok q q' := by
  rcases aStep_eq_some h with ⟨-, rfl⟩ | ⟨a, hfind, hu⟩
  · exact .refl
  · exact updateArecRx_effects (findFirst_mem hfind).1 hu

theorem updateServiceCache_effects (h : updateServiceCache fuel elapsed q m = some q') : Effects ok q q' := by
  unfold updateServiceCache at h
  split at h
  · simp only [bind_eq_bind, bind_eq_some_iff] at h
    obtain ⟨⟨q₁, m₁⟩, hptr, q₂, htxt, q₃, hsrv, ha⟩ := h
    have hptrs : Effects ok q q₁ := runAll_effects Prod.fst (fun _ _ _ hs => (takesPtr_of_ptrStep hs).effects) hptr
    have htxts : Effects ok q₁ q₂ := runAll_effects id (fun _ _ _ hs => txtStep_effects hs) htxt
    have hsrvs : Effects ok q₂ q₃ := runAll_effects id (fun _ _ _ hs => srvStep_effects hs) hsrv
    have has : Effects ok q₃ q' := runAll_effects id (fun _ _ _ hs => aStep_effects hs) ha
    exact ((hptrs.trans htxts).trans hsrvs).trans has
  · cases h
    exact .refl

theorem arecSched_effects (h : arecSched elapsed st a = some st') : Effects ok st.q st'.q := by
  obtain ⟨ret, hturn, -, -⟩ := arecSched_eq_some h
  exact hturn.effects

theorem arecPass_effects {l : List (Fin n)} (h : runAll (arecSched elapsed) l st = some st') :
    Effects ok st.q st'.q := runAll_effects Sched.q (fun _ _ _ hs => arecSched_effects hs) h

theorem sinstSched_effects (h : sinstSched elapsed st s = some st') : Effects ok st.q st'.q := by
  obtain ⟨q₁, ret, hu, h⟩ := bind_pair_eq_some.mp h
  cases h
  exact updateSinst_effects (fun _ he => by cases he) hu

theorem refreshMonitor_effects (elapsed : Nat) (st : Sched n k) (c : Fin k) :
    Effects ok st.q (refreshMonitor elapsed st c).1.q ∧ ∀ st',
      (refreshMonitor elapsed st c).2 = some st' → Effects ok st.q st'.q := by
  unfold refreshMonitor
  dsimp only
  split
  · have hdue : ∀ tx : Message, Effects ok st.q ({ st.q with tx }.setSmon c ((st.q.smons c).refresh st.q.tx.cur)) :=
      fun tx => .head (.sends tx) (.single (.schedules (.due _ _) rfl rfl rfl))
    split
    · exact ⟨hdue st.q.tx, nofun⟩
    · next tx _ =>
      refine ⟨hdue st.q.tx, ?_⟩
      intro st' hst'
      cases hst'
      exact hdue tx
  · have hwait : Effects ok st.q (st.q.setSmon c { st.q.smons c with
        nextRefresh := subtract (st.q.smons c).nextRefresh elapsed }) := .single (.schedules (.waits _ _) rfl rfl rfl)
    refine ⟨hwait, ?_⟩
    intro st' hst'
    cases hst'
    exact hwait

theorem queryMonitors_effects {cs : List (Fin k)} {all : Bool}
    (h : queryMonitors elapsed cs st = some (st', all)) : Effects ok st.q st'.q := by
  induction cs generalizing st with
  | nil =>
    cases h
    exact .refl
  | cons c cs ih =>
    obtain ⟨hfirst, hnext⟩ := refreshMonitor_effects elapsed st c
    unfold queryMonitors at h
    split at h
    · next st₁ heq =>
      cases h
      rw [heq] at hfirst
      exact hfirst
    · next st₁ st₂ heq =>
      simp only [bind_eq_bind, bind_eq_some_iff] at h
      obtain ⟨st₃, h₃, h⟩ := h
      have hpass : Effects ok st₂.q st₃.q := runAll_effects Sched.q (fun _ _ _ hs => sinstSched_effects hs) h₃
      exact ((hnext st₂ (by rw [heq])).trans hpass).trans (ih h)

theorem answerMonitor_effects (st : Sched n k) (c : Fin k) : Effects ok st.q (answerMonitor st c).q := by
  unfold answerMonitor
  dsimp only
  split
  · exact .head (.sends _) (.single (.schedules (.waits (st.q.smons c) _) rfl rfl rfl))
  · exact .refl

theorem answerMonitors_effects (cs : List (Fin k)) (st : Sched n k) :
    Effects ok st.q (cs.foldl answerMonitor st).q := by
  induction cs generalizing st with
  | nil => exact .refl
  | cons c cs ih => exact (answerMonitor_effects st c).trans (ih (answerMonitor st c))

theorem prepareQuery_effects (h : prepareQuery elapsed q = some st) : Effects ok q st.q := by
  unfold prepareQuery at h
  simp only [bind_eq_bind, bind_eq_some_iff] at h
  obtain ⟨st₁, h₁, ⟨st₂, all⟩, h₂, h⟩ := h
  have hinit : Effects ok q q.start.q := .single (.sends _)
  have hboth := (hinit.trans (arecPass_effects h₁)).trans (queryMonitors_effects h₂)
  dsimp only at h
  split at h
  · split at h
    · cases h
      exact hboth
    · cases h
      exact hboth.trans (answerMonitors_effects st₂.q.smonsActive st₂)
  · cases h
    exact hboth

theorem addService_effects {fqst : Mem} (hok : ok fqst) (h : addService fuel q fqst = some q') : Effects ok q q' := by
  unfold addService at h
  simp only [bind_eq_bind, bind_eq_some_iff] at h
  obtain ⟨found, hfind, h⟩ := h
  cases found with
  | some _ =>
    cases h
    exact .refl
  | none =>
    cases hfree : q.smonsFree with
    | nil =>
      simp only [hfree] at h
      cases h
      exact .refl
    | cons c free =>
      simp only [hfree] at h
      cases h
      exact .single (.begins hok hfind hfree)

theorem removeService_effects {fqst : Mem} (h : removeService fuel q fqst = some q') : Effects ok q q' := by
  unfold removeService at h
  split at h
  · exact runAll_effects id (fun _ _ _ hs => .single (.closes hs)) h
  · simp only [bind_eq_bind, bind_eq_some_iff] at h
    obtain ⟨found, -, h⟩ := h
    cases found with
    | none =>
      cases h
      exact .refl
    | some c => exact .single (.closes h)

theorem step_effects {ev : Event} (hok : ∀ fqst, ev = .monitor fqst → ok fqst) (h : step fuel q ev = some q') :
    Effects ok q q' := by
  cases ev with
  | monitor fqst => exact addService_effects (hok fqst rfl) h
  | unmonitor fqst => exact removeService_effects h
  | prepare elapsed =>
    obtain ⟨st, hst, rfl⟩ := map_eq_some_iff.mp h
    exact prepareQuery_effects hst
  | response data mlen elapsed =>
    simp only [step] at h
    cases hm : mdnsParseMessage fuel data mlen with
    | ok m =>
      rw [hm] at h
      exact updateServiceCache_effects h
    | error e =>
      rw [hm] at h
      cases e with
      | err =>
        cases h
        exact .refl
      | hang => cases h

theorem keeps_of_reflTransGen {β : Type} {R : β → β → Prop} {P : β → Prop} (hR : ∀ i j, R i j → P i → P j) {i j : β}
    (h : ReflTransGen R i j) (hi : P i) : P j := by
  induction h with
  | refl => exact hi
  | tail _ hlast ih => exact hR _ _ hlast ih

theorem Run.keeps {G : Guard n k} {P : Querier n k → Prop} (h : Run G q) (hnew : P (queryLaunch n k))
    (heffect : ∀ q q', Effect (fun _ => True) q q' → P q → P q') : P q := by
  induction h with
  | launch => exact hnew
  | step _ hstep ih =>
    exact keeps_of_reflTransGen heffect (step_effects (fun _ _ => trivial) (step_of_guardedStep hstep)) ih

end events

section entries

/-- The entries of the second state come from those of the first by changes. -/
structure Evolves (q q' : Querier n k) : Prop where
  sinsts : ∀ s, ReflTransGen SinstChange (q.sinsts s) (q'.sinsts s)
  arecs : ∀ a, ReflTransGen ArecChange (q.arecs a) (q'.arecs a)
  smons : ∀ c ∈ q'.smonsActive, ∃ mon,
    (c ∈ q.smonsActive ∧ mon = q.smons c ∨ ∃ fqst session, mon = newMonitor fqst session) ∧
    ReflTransGen SmonChange mon (q'.smons c)

theorem Evolves.trans (h : Evolves q q₁) (h' : Evolves q₁ q') : Evolves q q' where
  sinsts s := (h.sinsts s).trans (h'.sinsts s)
  arecs a := (h.arecs a).trans (h'.arecs a)
  smons c hc := by
    obtain ⟨mon, ⟨hc₁, rfl⟩ | hnew, hmon⟩ := h'.smons c hc
    · obtain ⟨mon₀, hmon₀, hfirst⟩ := h.smons c hc₁
      exact ⟨mon₀, hmon₀, hfirst.trans hmon⟩
    · exact ⟨mon, .inr hnew, hmon⟩

theorem evolves_of_smons (hs : ∀ s, ReflTransGen SinstChange (q.sinsts s) (q'.sinsts s))
    (ha : ∀ a, ReflTransGen ArecChange (q.arecs a) (q'.arecs a)) (hm : q'.smons = q.smons)
    (hactive : q'.smonsActive = q.smonsActive) : Evolves q q' where
  sinsts := hs
  arecs := ha
  smons c hc := ⟨q.smons c, .inl ⟨hactive ▸ hc, rfl⟩, by rw [hm]⟩

theorem Evolves.refl (q : Querier n k) : Evolves q q := evolves_of_smons (fun _ => .refl) (fun _ => .refl) rfl rfl

theorem reflTransGen_update {α β : Type} [DecidableEq α] {R : β → β → Prop} {f : α → β} {a : α} {b : β}
    (h : R (f a) b) (x : α) : ReflTransGen R (f x) (Function.update f a b x) := by
  by_cases hx : x = a
  · subst hx
    rw [Function.update_self]
    exact .single h
  · rw [Function.update_of_ne hx]

theorem evolves_setSinst {i : ServiceInstance n k} (h : SinstChange (q.sinsts s) i) : Evolves q (q.setSinst s i) :=
  evolves_of_smons (reflTransGen_update h) (fun _ => .refl) rfl rfl

theorem evolves_setSmon {mon : ServiceMonitor n} (h : SmonChange (q.smons c) mon) : Evolves q (q.setSmon c mon) where
  sinsts _ := .refl
  arecs _ := .refl
  smons d hd := ⟨q.smons d, .inl ⟨hd, rfl⟩, reflTransGen_update h d⟩

theorem arecs_listed (h : ∀ a, q'.arecs a = { q.arecs a with sinsts := (q'.arecs a).sinsts }) (a : Fin n) :
    ReflTransGen ArecChange (q.arecs a) (q'.arecs a) := by
  rw [h a]
  exact .single (.listed _ _)

theorem Cleaned.evolves (h : Cleaned q s q') : Evolves q q' where
  sinsts t := by
    rw [h.sinsts]
    exact reflTransGen_update (.retired _) t
  arecs := arecs_listed h.arecs
  smons d hd := by
    refine ⟨q.smons d, .inl ⟨h.smonsActive ▸ hd, rfl⟩, ?_⟩
    rw [h.smons d]
    exact .single (.listed _ _)

theorem Hosted.evolves {ret : Int} (h : Hosted q s a q' ret) : Evolves q q' := by
  refine evolves_of_smons (fun t => ?_) (arecs_listed h.arecs) h.smons h.smonsActive
  rw [h.sinsts]
  exact reflTransGen_update (.hosted _ _ _) t

theorem closeMonitor_evolves (h : closeMonitor q c = some q') : Evolves q q' := by
  unfold closeMonitor at h
  simp only [bind_eq_bind, bind_eq_some_iff, Option.pure_def, some.injEq] at h
  obtain ⟨active, hactive, q₁, h₁, rfl⟩ := h
  obtain ⟨-, rfl⟩ := slistRemove_eq_some.mp hactive
  have hoff : Evolves q { q with smonsActive := q.smonsActive.erase c } :=
    ⟨fun _ => .refl, fun _ => .refl, fun d hd => ⟨_, .inl ⟨List.mem_of_mem_erase hd, rfl⟩, .refl⟩⟩
  have hclean := runAll_keeps (I := Evolves { q with smonsActive := q.smonsActive.erase c })
    (fun _ _ _ hs hI => hI.trans (cleaned_of_cleanupSinst hs).evolves) h₁ (.refl _)
  have hall := hoff.trans hclean
  exact ⟨hall.sinsts, hall.arecs, hall.smons⟩

theorem Effect.evolves (h : Effect ok q q') : Evolves q q' := by
  cases h with
  | sends _ => exact evolves_of_smons (fun _ => .refl) (fun _ => .refl) rfl rfl
  | reports _ => exact evolves_of_smons (fun _ => .refl) (fun _ => .refl) rfl rfl
  | renews hc _ => exact evolves_setSinst hc
  | resolves hc _ _ => exact evolves_of_smons (fun _ => .refl) (reflTransGen_update hc) rfl rfl
  | schedules hc _ _ _ => exact evolves_setSmon hc
  | cleans hclean => exact (cleaned_of_cleanupSinst hclean).evolves
  | hosts _ hh => exact hh.evolves
  | abandons s => exact evolves_setSinst (.homeless _)
  | enlists _ _ => exact evolves_of_smons (fun _ => .refl) (reflTransGen_update (.fresh _ _)) rfl rfl
  | blanks c _ => exact evolves_setSinst (.blank _ c)
  | @adopts s free c i _ _ _ ptrTtl hc _ _ hcopy =>
    have hmon : Evolves q
      ({ q with sinstsFree := free }.setSmon c { q.smons c with sinsts := s :: (q.smons c).sinsts }) :=
      ⟨fun _ => .refl, fun _ => .refl, fun d hd => ⟨q.smons d, .inl ⟨hd, rfl⟩,
        reflTransGen_update (R := SmonChange) (.listed (q.smons c) _) d⟩⟩
    have hname := hmon.trans (evolves_setSinst (s := s) (.named _ hcopy))
    have hself := setSinst_self ({ q with sinstsFree := free }.setSmon c { q.smons c with
      sinsts := s :: (q.smons c).sinsts }) s i
    have hheard := hname.trans
      (evolves_setSinst (s := s) (i := { i with ptrTtl }) (by rw [hself]; exact .heard i ptrTtl))
    rw [setSinst_setSinst] at hheard
    exact hheard
  | @begins c free _ fqst _ _ _ =>
    refine ⟨fun _ => .refl, fun _ => .refl, ?_⟩
    intro d hd
    by_cases hdc : d = c
    · rw [hdc, setSmon_self]
      exact ⟨_, .inr ⟨fqst, q.sessions, rfl⟩, .refl⟩
    · rw [setSmon_others _ c _ hdc]
      exact ⟨_, .inl ⟨List.mem_of_ne_of_mem hdc hd, rfl⟩, .refl⟩
  | closes hclose => exact closeMonitor_evolves hclose

theorem evolves_of_effects (h : Effects ok q q') : Evolves q q' :=
  keeps_of_reflTransGen (P := Evolves q) (fun _ _ he hI => hI.trans he.evolves) h (.refl q)

theorem Run.sinsts {G : Guard n k} {P : ServiceInstance n k → Prop} (h : Run G q) (hnew : P {})
    (hchange : ∀ i j, SinstChange i j → P i → P j) : ∀ s, P (q.sinsts s) :=
  h.keeps (P := fun q => ∀ s, P (q.sinsts s)) (fun _ => hnew)
    (fun _ _ he hI s => keeps_of_reflTransGen hchange (he.evolves.sinsts s) (hI s))

theorem Evolves.smons_keep {P : ServiceMonitor n → Prop} (h : Evolves q q')
    (hnew : ∀ fqst session, P (newMonitor fqst session)) (hchange : ∀ mon mon', SmonChange mon mon' → P mon → P mon')
    (hq : ∀ c ∈ q.smonsActive, P (q.smons c)) : ∀ c ∈ q'.smonsActive, P (q'.smons c) := by
  intro c hc
  obtain ⟨mon, hfrom, hmon⟩ := h.smons c hc
  apply keeps_of_reflTransGen hchange hmon
  rcases hfrom with ⟨hold, rfl⟩ | ⟨fqst, session, rfl⟩
  · exact hq c hold
  · exact hnew fqst session

end entries

end Mdns
