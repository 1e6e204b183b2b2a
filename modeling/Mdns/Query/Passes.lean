import Mdns.Query.Packing

/-!
# The passes of a query

Each turn of the loops of `prepare_query` packs its question into the message, moves its timers on
and leaves the others alone, so that the questions of the whole call are those that were due before
it.
-/
namespace Mdns
open Lib List Option
open Function (update update_of_ne update_self)

variable {n k : Nat} {q q₁ q' : Querier n k} {s a : Fin n} {c : Fin k} {elapsed : Nat}

section arecs
variable {gone gone' : Fin n → Bool} {ws : List Attempt} {st st' : Sched n k}
  {l : List (Fin n)} {r r' : ARec n}

structure Loses (gone : Fin n → Bool) (q q' : Querier n k) : Prop where
  members : ∀ c, (q'.smons c).sinsts = (q.smons c).sinsts.filter (fun s => !gone s)
  smons : ∀ c, q'.smons c = { q.smons c with sinsts := (q'.smons c).sinsts }
  kept : ∀ s, gone s = false → q'.sinsts s = q.sinsts s
  percent : ∀ s, (q'.sinsts s).ttlPercent = (q.sinsts s).ttlPercent
  arec : ∀ s, (q'.sinsts s).arec = (q.sinsts s).arec

theorem loses_none (hsmons : q'.smons = q.smons) (hsinsts : q'.sinsts = q.sinsts) (hgone : ∀ s, gone s = false) :
    Loses gone q q' where
  members c := by
    rw [hsmons]
    exact (filter_eq_self.mpr (fun s _ => by simp [hgone s])).symm
  smons c := by rw [hsmons]
  kept s _ := by rw [hsinsts]
  percent s := by rw [hsinsts]
  arec s := by rw [hsinsts]

theorem Loses.trans (h : Loses gone q q₁) (h' : Loses gone' q₁ q') : Loses (fun s => gone s || gone' s) q q' where
  members c := by
    rw [h'.members c, h.members c, List.filter_filter]
    refine filter_congr (fun s _ => ?_)
    rw [Bool.not_or, Bool.and_comm]
  smons c := by rw [h'.smons c, h.smons c]
  kept s hs := by
    obtain ⟨hg, hg'⟩ := Bool.or_eq_false_iff.mp hs
    rw [h'.kept s hg', h.kept s hg]
  percent s := (h'.percent s).trans (h.percent s)
  arec s := (h'.arec s).trans (h.arec s)

theorem Loses.congr (h : Loses gone q q') (hkept : ∀ s, gone' s = false → gone s = false)
    (hgone : ∀ c, ∀ s ∈ (q.smons c).sinsts, gone s = gone' s) : Loses gone' q q' :=
  { h with
    members := fun c => by
      rw [h.members c]
      exact filter_congr (fun s hs => by rw [hgone c s hs])
    kept := fun s hs => h.kept s (hkept s hs) }

theorem Cleaned.loses (h : Cleaned q s q') (hq : q.Held) : Loses (fun t => t = s) q q' where
  members c := by
    have hmembers : (q'.smons c).sinsts = unlink q.reg.owner q.reg.members s c :=
      congrFun (congrArg Registry.members h.reg) c
    rw [hmembers, unlink_apply]
    by_cases ho : q.reg.owner s = some c
    · rw [if_pos ho, (hq.members.nodup c).erase_eq_filter]
      exact filter_congr (fun t _ => rfl)
    · rw [if_neg ho]
      refine (filter_eq_self.mpr (fun t ht => ?_)).symm
      have hts : t ≠ s := fun he => ho (he ▸ ((hq.members.mem_iff c t).mp ht).2)
      simp [hts]
  smons c := h.smons c
  kept t ht := h.others (of_decide_eq_false ht)
  percent t := by
    rw [h.sinsts]
    exact congrFun (field_update_same (g := ServiceInstance.ttlPercent) (f := q.sinsts) (a := s)
      (b := { q.sinsts s with nextRefresh := uint32Max }) rfl) t
  arec t := by
    rw [h.sinsts]
    exact congrFun (field_update_same (g := ServiceInstance.arec) (f := q.sinsts) (a := s)
      (b := { q.sinsts s with nextRefresh := uint32Max }) rfl) t

theorem Loses.log (h : Loses gone q q') (log : List (Report n)) : Loses gone q { q' with log } :=
  ⟨h.members, h.smons, h.kept, h.percent, h.arec⟩

theorem alertLost_cleaned (h : alertSinst .lostArec q s = some q') :
    ∃ q₁ log, Cleaned q s q₁ ∧ q' = { q₁ with log } := by
  obtain ⟨q₂, changes, hchanges, hreacts⟩ := alertSinst_eq_some h
  cases hchanges
  cases hreacts with
  | lost _ hclean => exact ⟨_, _, cleaned_of_cleanupSinst hclean, rfl⟩
  | lostShown _ hclean hcb =>
    obtain ⟨c, -, rfl⟩ := callbackOn_eq_some.mp hcb
    exact ⟨_, _, cleaned_of_cleanupSinst hclean, rfl⟩

theorem runAll_lost_loses {slots : List (Fin n)} (hq : q.Held) (h : runAll (alertSinst .lostArec) slots q = some q') :
    Loses (fun s => slots.contains s) q q' ∧ q'.tx = q.tx := by
  induction slots generalizing q with
  | nil =>
    cases h
    exact ⟨loses_none rfl rfl (fun _ => rfl), rfl⟩
  | cons s slots ih =>
    obtain ⟨q₁, hstep, hmore⟩ := runAll_cons_eq_some.mp h
    obtain ⟨q₂, log, hcl, heq⟩ := alertLost_cleaned hstep
    obtain ⟨hrest, htx⟩ := ih (Effects.held (alertLost_effects hstep) hq) hmore
    have hone : Loses (fun t => t = s) q q₁ := heq ▸ (hcl.loses hq).log log
    refine ⟨(hone.trans hrest).congr ?_ ?_, ?_⟩
    · intro t ht
      simpa using ht
    · intro c t _
      simp
    · rw [htx, heq]
      exact hcl.tx

theorem evictArec_loses (hq : q.Held) (h : evictArec q a = some q') :
    Loses (fun s => (q.sinsts s).arec = some a) q q' ∧ q'.tx = q.tx := by
  have hhosted := fun s hs => evictArec_hosted (s := s) hq h hs
  obtain ⟨q₁, h₁, -, rfl⟩ := evictArec_eq_some h
  obtain ⟨hall, htx⟩ := runAll_lost_loses hq h₁
  have hloses : Loses (fun s => (q.sinsts s).arec = some a) q q₁ := by
    refine hall.congr ?_ ?_
    · intro s hs
      refine Bool.eq_false_iff.mpr (fun hc => ?_)
      exact of_decide_eq_false hs (hhosted s (contains_iff_mem.mp hc))
    · intro c s hs
      have hused := ((hq.members.mem_iff c s).mp hs).1
      refine Bool.eq_iff_iff.mpr ⟨fun hc => decide_eq_true (hhosted s (contains_iff_mem.mp hc)), fun hd => ?_⟩
      exact contains_iff_mem.mpr (hq.hosted s a hused (of_decide_eq_true hd)).1
  exact ⟨⟨hloses.members, hloses.smons, hloses.kept, hloses.percent, hloses.arec⟩, htx⟩

theorem evictArec_keeps (h : evictArec q a = some q') :
    (q'.arecs a).state = (q.arecs a).state ∧ (q'.arecs a).ttlPercent = (q.arecs a).ttlPercent := by
  obtain ⟨q₁, h₁, -, rfl⟩ := evictArec_eq_some h
  have hall : Proceeds [] 0 q q₁ :=
    runAll_keeps (I := fun q₁ => Proceeds [] 0 q q₁) (fun _ _ _ hs hp => hp.trans (alertSinst_proceeds hs)) h₁ (.refl q)
  have hentry := hall.others a (not_mem_nil)
  rw [setArec_self, hentry]
  exact ⟨rfl, rfl⟩

/-- The A record has used up a question: it asks for the first time or again. -/
def ARec.Advances (r r' : ARec n) : Prop :=
  (r.state ≠ .querying ∧ r'.state = .querying) ∨ (0 < r.ttlPercent ∧ r'.ttlPercent = r.ttlPercent / 2)

theorem ARec.not_advances (hstate : r'.state = r.state) (hpercent : r'.ttlPercent = r.ttlPercent) :
    ¬ r.Advances r' := by
  rintro (⟨hne, he⟩ | ⟨hpos, hhalf⟩)
  · exact hne (hstate ▸ he)
  · omega

structure ArecSpends (q : Querier n k) (a : Fin n) (elapsed : Nat) (q' : Querier n k) (ret : Int) : Prop where
  loses : Loses (fun s => (q.arecs a).givenUp elapsed && (q.sinsts s).arec = some a) q q'
  advances : (q.arecs a).Advances (q'.arecs a) ↔ (q.arecs a).asks elapsed = true
  packs : ∀ ws, q.tx.Packs ws → Spelled (q.arecs a).fqdn →
    ∃ ws', datagram.pack ws ((q.arecs a).attempts elapsed) = some ws' ∧ q'.tx.Packs ws' ∧
      (ws'.length : Int) ≤ ws.length + ret

theorem askArec_spends (hname : r.fqdn = (q.arecs a).fqdn) (hasks : (q.arecs a).asks elapsed = true)
    (hup : (q.arecs a).givenUp elapsed = false) (hadv : (q.arecs a).Advances r) :
    ArecSpends q a elapsed (askArec q a r) 1 where
  loses := loses_none rfl rfl (fun _ => by rw [hup, Bool.false_and])
  advances := by
    unfold askArec
    rw [setArec_self]
    exact ⟨fun _ => hasks, fun _ => hadv⟩
  packs ws hm hn := by
    obtain ⟨ws', hpack, hm', hlen⟩ := hm.offer hn (show tA < 65536 by decide)
    refine ⟨ws', ?_, ?_, ?_⟩
    · unfold ARec.attempts
      rw [if_pos hasks]
      exact hpack
    · unfold askArec
      rw [hname]
      exact hm'
    · rw [hlen]
      split <;> omega

theorem spends_of_not_asks (hasks : (q.arecs a).asks elapsed = false) (htx : q'.tx = q.tx)
    (hstate : (q'.arecs a).state = (q.arecs a).state) (hpercent : (q'.arecs a).ttlPercent = (q.arecs a).ttlPercent)
    (hloses : Loses (fun s => (q.arecs a).givenUp elapsed && (q.sinsts s).arec = some a) q q') :
    ArecSpends q a elapsed q' 0 where
  loses := hloses
  advances := by
    rw [hasks]
    exact ⟨fun hadv => absurd hadv (ARec.not_advances hstate hpercent), nofun⟩
  packs ws hm _ := by
    refine ⟨ws, ?_, htx ▸ hm, by omega⟩
    unfold ARec.attempts
    rw [hasks]
    rfl

theorem ArecTurn.spends {ret : Int} (h : ArecTurn q a elapsed q' ret) (hq : q.Held) :
    ArecSpends q a elapsed q' ret := by
  cases h with
  | launches hst =>
    exact askArec_spends rfl (by simp [ARec.asks, hst]) (by simp [ARec.givenUp, hst]) (.inl ⟨by simp [hst], rfl⟩)
  | waits hst hlt =>
    have hself := setArec_self q a ((q.arecs a).age elapsed)
    refine spends_of_not_asks ?_ rfl (by rw [hself]; rfl) (by rw [hself]; rfl) (loses_none rfl rfl ?_)
    · simp [ARec.asks, hst, hlt]
    · simp [ARec.givenUp, hlt]
  | retries hst hdue hp =>
    refine askArec_spends rfl ?_ ?_ (.inr ⟨by omega, rfl⟩)
    · simp [ARec.asks, hdue, hp]
    · simp [ARec.givenUp, hp]
  | refreshes hst hdue =>
    refine askArec_spends rfl ?_ ?_ (.inl ⟨by simp [hst], rfl⟩)
    · simp [ARec.asks, hdue, hst]
    · simp [ARec.givenUp, hst]
  | @evicts q' hst hdue hlow hevict =>
    have hup : (q.arecs a).givenUp elapsed = true := by simp [ARec.givenUp, hst, hdue, hlow]
    have heffects : Effects (fun _ => True) q (q.setArec a ((q.arecs a).age elapsed)) :=
      .single (.resolves (.ages _ elapsed) rfl rfl)
    obtain ⟨hloses, htx⟩ := evictArec_loses (Effects.held heffects hq) hevict
    obtain ⟨hstate, hpercent⟩ := evictArec_keeps hevict
    rw [setArec_self] at hstate hpercent
    refine spends_of_not_asks (by simp [ARec.asks, hst, hlow]) htx hstate hpercent ?_
    rw [hup]
    simp only [Bool.true_and]
    exact ⟨hloses.members, hloses.smons, hloses.kept, hloses.percent, hloses.arec⟩

/-- A message is built along the passes: these questions are in it, and they are counted. -/
structure Sched.Packs (st : Sched n k) (ws : List Attempt) : Prop where
  tx : st.q.tx.Packs ws
  ret : (ws.length : Int) ≤ st.ret

theorem attempts_congr (h : r' = { r with sinsts := r'.sinsts }) :
    r'.attempts elapsed = r.attempts elapsed ∧ r'.givenUp elapsed = r.givenUp elapsed ∧
      r'.asks elapsed = r.asks elapsed := by
  rw [h]
  exact ⟨rfl, rfl, rfl⟩

theorem any_givenUp_congr (hothers : ∀ b ∈ l, q'.arecs b = { q.arecs b with sinsts := (q'.arecs b).sinsts })
    (hloses : Loses gone q q') (s : Fin n) :
    l.any (fun b => (q'.arecs b).givenUp elapsed && (q'.sinsts s).arec = some b) =
      l.any (fun b => (q.arecs b).givenUp elapsed && (q.sinsts s).arec = some b) := by
  rw [Bool.eq_iff_iff, List.any_eq_true, List.any_eq_true]
  refine exists_congr (fun b => and_congr_right (fun hb => ?_))
  rw [(attempts_congr (hothers b hb)).2.1, hloses.arec s]

structure ArecPass (l : List (Fin n)) (elapsed : Nat) (st st' : Sched n k) : Prop where
  loses : Loses (fun s => l.any (fun a => (st.q.arecs a).givenUp elapsed && (st.q.sinsts s).arec = some a)) st.q st'.q
  advances : ∀ a ∈ l, (st.q.arecs a).Advances (st'.q.arecs a) ↔ (st.q.arecs a).asks elapsed = true
  packs : ∀ ws, st.Packs ws → (∀ a ∈ l, Spelled (st.q.arecs a).fqdn) →
    ∃ ws', datagram.pack ws (l.flatMap (fun a => (st.q.arecs a).attempts elapsed)) = some ws' ∧ st'.Packs ws'

theorem arecPass_of_runAll (hl : l.Nodup) (hq : st.q.Held)
    (h : runAll (arecSched elapsed) l st = some st') : ArecPass l elapsed st st' := by
  induction l generalizing st with
  | nil =>
    cases h
    exact ⟨loses_none rfl rfl (fun _ => rfl), nofun, fun ws hw _ => ⟨ws, rfl, hw⟩⟩
  | cons a l ih =>
    obtain ⟨st₁, hstep, hmore⟩ := runAll_cons_eq_some.mp h
    obtain ⟨hout, hl⟩ := nodup_cons.mp hl
    obtain ⟨ret, hturn, hret, -⟩ := arecSched_eq_some hstep
    have hfirst := hturn.spends hq
    have hrest := ih hl (Effects.held (arecSched_effects hstep) hq) hmore
    -- the A records that come later are as they were, but for their lists
    have hothers : ∀ b ∈ l, st₁.q.arecs b = { st.q.arecs b with sinsts := (st₁.q.arecs b).sinsts } :=
      fun b hb => hturn.proceeds.others b (fun he => hout (mem_singleton.mp he ▸ hb))
    refine ⟨(hfirst.loses.trans hrest.loses).congr ?_ ?_, ?_, ?_⟩
    · intro s hs
      rw [any_cons, ← any_givenUp_congr hothers hfirst.loses] at hs
      exact hs
    · intro c s _
      rw [any_cons, ← any_givenUp_congr hothers hfirst.loses]
    · intro b hb
      rcases mem_cons.mp hb with rfl | hb
      · rw [← hfirst.advances]
        have hlater := (arecPass_leads hmore).q.others b hout
        rw [hlater]
        exact Iff.rfl
      · have hsame := hothers b hb
        rw [← (attempts_congr hsame).2.2, ← hrest.advances b hb, hsame]
        exact Iff.rfl
    · intro ws hw hn
      obtain ⟨ws₁, hpack₁, hm₁, hlen⟩ := hfirst.packs ws hw.tx (hn a (mem_cons_self ..))
      have hcount := hw.ret
      have hn₁ : ∀ b ∈ l, Spelled (st₁.q.arecs b).fqdn := by
        intro b hb
        rw [hothers b hb]
        exact hn b (mem_cons_of_mem _ hb)
      obtain ⟨ws', hpack', hw'⟩ := hrest.packs ws₁ ⟨hm₁, by omega⟩ hn₁
      refine ⟨ws', ?_, hw'⟩
      have hattempts : l.flatMap (fun b => (st₁.q.arecs b).attempts elapsed) =
          l.flatMap (fun b => (st.q.arecs b).attempts elapsed) :=
        flatMap_congr (fun b hb => (attempts_congr (hothers b hb)).1)
      rw [flatMap_cons, Box.pack_append, hpack₁, bind_some, ← hattempts]
      exact hpack'

end arecs

section sinsts
variable {ret : Int} {st st₁ st' : Sched n k} {ws : List Attempt} {i j : ServiceInstance n k}

def ServiceInstance.expires (i : ServiceInstance n k) (elapsed : Nat) : Bool :=
  i.nextRefresh ≤ elapsed && i.ttlPercent < 5

/-- Instances that do not differ in their retry state, their PTR record and their names. -/
structure Alike (i j : ServiceInstance n k) : Prop where
  ttlPercent : j.ttlPercent = i.ttlPercent
  ptrTtl : j.ptrTtl = i.ptrTtl
  servname : j.servname = i.servname
  fqsn : j.fqsn = i.fqsn

structure Turned (elapsed : Nat) (i j : ServiceInstance n k) : Prop where
  ttlPercent : j.ttlPercent = if i.asks elapsed then i.ttlPercent / 2 else i.ttlPercent
  ptrTtl : j.ptrTtl = subtract i.ptrTtl elapsed
  servname : j.servname = i.servname
  fqsn : j.fqsn = i.fqsn

/-- `update_sinst` asks its question in `apply_elapsed`; what it does besides is for the user. -/
structure Reports (s : Fin n) (q₁ q' : Querier n k) (r ret : Int) : Prop where
  counted : r = 1 → ret = 1
  nonneg : 0 ≤ ret
  tx : q'.tx = q₁.tx
  smons : q'.smons = q₁.smons
  others : ∀ t, t ≠ s → q'.sinsts t = q₁.sinsts t
  alike : Alike (q₁.sinsts s) (q'.sinsts s)

theorem ends_callbackOn {status : Status} (h : callbackOn q₁ s status = some q') (r : Int)
    (hr : r ≠ 1) : Reports s q₁ q' r 0 := by
  obtain ⟨c, -, rfl⟩ := callbackOn_eq_some.mp h
  exact ⟨fun h1 => absurd h1 hr, Int.le_refl 0, rfl, rfl, fun _ _ => rfl, ⟨rfl, rfl, rfl, rfl⟩⟩

theorem ends_self (s : Fin n) (q : Querier n k) {r ret : Int} (hcounted : r = 1 → ret = 1)
    (hret : 0 ≤ ret) : Reports s q q r ret :=
  ⟨hcounted, hret, rfl, rfl, fun _ _ => rfl, ⟨rfl, rfl, rfl, rfl⟩⟩

theorem updateSinst_ends (h : updateSinst 0 q s .addQuestions elapsed = some (q', ret)) :
    ∃ q₁ r, Ages q s elapsed q₁ r ∧ Reports s q₁ q' r ret := by
  unfold updateSinst at h
  obtain ⟨q₂, changes, hchanges, h⟩ := bind_pair_eq_some.mp h
  cases hchanges
  obtain ⟨q₃, changes', hreact, h⟩ := bind_pair_eq_some.mp h
  simp only [Option.pure_def, some.injEq, Prod.mk.injEq] at h
  obtain ⟨rfl, rfl⟩ := h
  have hret : (0 : Int) ≤ if changes' > 0 then 1 else 0 := by split <;> decide
  obtain ⟨q₁, r, hage, hreact⟩ := sinstReact_addQuestions hreact
  refine ⟨q₁, r, ages_of_applyElapsed hage, ?_⟩
  rcases hreact with ⟨hr, -, hcb, rfl⟩ | ⟨-, -, rfl, rfl⟩ | ⟨-, rfl, hcounted⟩
  · exact ends_callbackOn hcb r (fun h1 => absurd (hr.symm.trans h1) (by decide))
  · refine ⟨fun _ => rfl, hret, rfl, rfl, fun t ht => ?_, ?_⟩
    · rw [Querier.setState, setSinst_others _ s _ ht, setSinst_others _ s _ ht]
    · rw [Querier.setState, setSinst_self, setSinst_self]
      exact ⟨rfl, rfl, rfl, rfl⟩
  · refine ends_self s q₃ (fun h1 => ?_) hret
    rw [hcounted h1]
    rfl

structure SinstSpends (q : Querier n k) (s : Fin n) (elapsed : Nat) (q' : Querier n k) (ret : Int) : Prop where
  others : ∀ t, t ≠ s → q'.sinsts t = q.sinsts t
  turned : Turned elapsed (q.sinsts s) (q'.sinsts s)
  members : ∀ c, (q'.smons c).sinsts = (q.smons c).sinsts.filter (fun t => !(t = s && (q.sinsts s).expires elapsed))
  smons : ∀ c, q'.smons c = { q.smons c with sinsts := (q'.smons c).sinsts }
  packs : ∀ ws, q.tx.Packs ws → Spelled (q.sinsts s).fqsn →
    ∃ ws', datagram.pack ws ((q.sinsts s).attempts elapsed) = some ws' ∧ q'.tx.Packs ws' ∧
      (ws'.length : Int) ≤ ws.length + ret

theorem filter_not_expires {i : ServiceInstance n k} (h : i.expires elapsed = false) (l : List (Fin n)) :
    l = l.filter (fun t => !(t = s && i.expires elapsed)) := by
  rw [h]
  exact (filter_eq_self.mpr (fun t _ => by simp)).symm

theorem sinstSpends_of_asks (hasks : (q.sinsts s).asks elapsed = true) (hends : Reports s q₁ q' r ret)
    (htx : q₁.tx = (mdnsAddQuestion q.tx (q.sinsts s).fqsn tAny cIn).getD q.tx)
    (hsinsts : q₁.sinsts = update q.sinsts s ((q.sinsts s).age elapsed).reschedule) (hsmons : q₁.smons = q.smons)
    (hret : (if (mdnsAddQuestion q.tx (q.sinsts s).fqsn tAny cIn).isSome then 1 else 0) ≤ ret) :
    SinstSpends q s elapsed q' ret where
  others t ht := by
    rw [hends.others t ht, hsinsts, update_of_ne ht]
  turned := by
    have halike := hends.alike
    rw [hsinsts, update_self] at halike
    refine ⟨?_, halike.ptrTtl, halike.servname, halike.fqsn⟩
    rw [if_pos hasks]
    exact halike.ttlPercent
  members c := by
    have hlow : (q.sinsts s).expires elapsed = false := by
      have hfive := of_decide_eq_true (Bool.and_eq_true_iff.mp hasks).2
      have hnot : ¬ (q.sinsts s).ttlPercent < 5 := by omega
      simp [ServiceInstance.expires, hnot]
    rw [hends.smons, hsmons]
    exact filter_not_expires hlow _
  smons c := by rw [hends.smons, hsmons]
  packs ws hm hn := by
    obtain ⟨ws', hpack, hm', hlen⟩ := hm.offer hn (show tAny < 65536 by decide)
    refine ⟨ws', ?_, ?_, ?_⟩
    · unfold ServiceInstance.attempts
      rw [if_pos hasks]
      exact hpack
    · rw [hends.tx, htx]
      exact hm'
    · rw [hlen]
      split at hret
      · next hsome =>
        rw [if_pos hsome]
        omega
      · next hnone =>
        rw [if_neg hnone]
        omega

theorem updateSinst_spends (hq : q.Held) (h : updateSinst 0 q s .addQuestions elapsed = some (q', ret)) :
    SinstSpends q s elapsed q' ret := by
  obtain ⟨q₁, r, hage, hends⟩ := updateSinst_ends h
  have hdue : ((q.sinsts s).age elapsed).nextRefresh = 0 ↔ (q.sinsts s).nextRefresh ≤ elapsed := subtract_eq_zero
  have hret := hends.nonneg
  -- without a question the message stays as it is
  have hsilent : (q.sinsts s).asks elapsed = false → q'.tx = q.tx → ∀ ws, q.tx.Packs ws → Spelled (q.sinsts s).fqsn →
      ∃ ws', datagram.pack ws ((q.sinsts s).attempts elapsed) = some ws' ∧ q'.tx.Packs ws' ∧
        (ws'.length : Int) ≤ ws.length + ret := by
    intro hasks htx ws hm _
    refine ⟨ws, ?_, htx ▸ hm, by omega⟩
    unfold ServiceInstance.attempts
    rw [hasks]
    rfl
  cases hage with
  | waits hne =>
    have hlt : ¬ (q.sinsts s).nextRefresh ≤ elapsed := fun hle => hne (hdue.mpr hle)
    have hasks : (q.sinsts s).asks elapsed = false := by simp [ServiceInstance.asks, hlt]
    have halike := hends.alike
    rw [setSinst_self] at halike
    refine ⟨fun t ht => ?_, ⟨?_, halike.ptrTtl, halike.servname, halike.fqsn⟩, fun c => ?_, fun c => ?_,
      hsilent hasks hends.tx⟩
    · rw [hends.others t ht, setSinst_others _ s _ ht]
    · rw [hasks]
      exact halike.ttlPercent
    · rw [hends.smons]
      exact filter_not_expires (by simp [ServiceInstance.expires, hlt]) _
    · rw [hends.smons]
      rfl
  | @asks tx hz hp hask =>
    refine sinstSpends_of_asks (by simp [ServiceInstance.asks, hdue.mp hz, hp]) hends ?_ rfl rfl ?_
    · rw [hask]
      rfl
    · rw [hends.counted rfl]
      split <;> decide
  | crowded hz hp hask =>
    refine sinstSpends_of_asks (by simp [ServiceInstance.asks, hdue.mp hz, hp]) hends ?_ rfl rfl ?_
    · rw [hask]
      rfl
    · rw [hask]
      exact hret
  | expires hz hp hclean =>
    have hcl := cleaned_of_cleanupSinst hclean
    have hheld : (q.setSinst s ((q.sinsts s).age elapsed)).Held :=
      Effects.held (effects_setSinst (.ages _ elapsed) ⟨rfl, rfl, rfl⟩) hq
    have hloses := hcl.loses hheld
    have hlow : ¬ 5 ≤ (q.sinsts s).ttlPercent := by omega
    have hasks : (q.sinsts s).asks elapsed = false := by simp [ServiceInstance.asks, hlow]
    have hexp : (q.sinsts s).expires elapsed = true := by simp [ServiceInstance.expires, hdue.mp hz, hp]
    have halike := hends.alike
    rw [hcl.entry, setSinst_self] at halike
    refine ⟨fun t ht => ?_, ⟨?_, halike.ptrTtl, halike.servname, halike.fqsn⟩, fun c => ?_, fun c => ?_,
      hsilent hasks (hends.tx.trans hcl.tx)⟩
    · rw [hends.others t ht, hcl.others ht, setSinst_others _ s _ ht]
    · rw [hasks]
      exact halike.ttlPercent
    · rw [hends.smons, hloses.members c, hexp]
      exact filter_congr (fun t _ => by simp)
    · rw [hends.smons]
      exact hloses.smons c

structure SinstPass (l : List (Fin n)) (elapsed : Nat) (st st' : Sched n k) : Prop where
  others : ∀ t, t ∉ l → st'.q.sinsts t = st.q.sinsts t
  turned : ∀ s ∈ l, Turned elapsed (st.q.sinsts s) (st'.q.sinsts s)
  members : ∀ c, (st'.q.smons c).sinsts =
    (st.q.smons c).sinsts.filter (fun t => !(l.contains t && (st.q.sinsts t).expires elapsed))
  smons : ∀ c, st'.q.smons c = { st.q.smons c with sinsts := (st'.q.smons c).sinsts }
  packs : ∀ ws, st.Packs ws → (∀ s ∈ l, Spelled (st.q.sinsts s).fqsn) →
    ∃ ws', datagram.pack ws (l.flatMap (fun s => (st.q.sinsts s).attempts elapsed)) = some ws' ∧ st'.Packs ws'

theorem sinstPass_of_runAll {l : List (Fin n)} (hl : l.Nodup) (hq : st.q.Held)
    (h : runAll (sinstSched elapsed) l st = some st') :
    SinstPass l elapsed st st' := by
  induction l generalizing st with
  | nil =>
    cases h
    refine ⟨fun _ _ => rfl, nofun, fun c => ?_, fun _ => rfl, fun ws hw _ => ⟨ws, rfl, hw⟩⟩
    exact (filter_eq_self.mpr (fun _ _ => rfl)).symm
  | cons s l ih =>
    obtain ⟨st₁, hstep, hmore⟩ := runAll_cons_eq_some.mp h
    obtain ⟨hout, hl⟩ := nodup_cons.mp hl
    have hq₁ : st₁.q.Held := Effects.held (sinstSched_effects hstep) hq
    obtain ⟨q₁, ret, hu, hst₁⟩ := bind_pair_eq_some.mp hstep
    cases hst₁
    have hfirst := updateSinst_spends hq hu
    have hrest := ih hl hq₁ hmore
    -- the instances that come later are as they were
    have hothers : ∀ t ∈ l, q₁.sinsts t = st.q.sinsts t := fun t ht => hfirst.others t (fun he => hout (he ▸ ht))
    refine ⟨?_, ?_, ?_, ?_, ?_⟩
    · intro t ht
      obtain ⟨hts, htl⟩ := not_or.mp (fun hor => ht (mem_cons.mpr hor))
      exact (hrest.others t htl).trans (hfirst.others t hts)
    · intro t ht
      rcases mem_cons.mp ht with rfl | ht
      · rw [hrest.others t hout]
        exact hfirst.turned
      · have hturn := hrest.turned t ht
        rw [hothers t ht] at hturn
        exact hturn
    · intro c
      rw [hrest.members c, hfirst.members c, List.filter_filter]
      refine filter_congr (fun t _ => ?_)
      by_cases hts : t = s
      · simp [hts, hout]
      · simp [hts, hfirst.others t hts]
    · intro c
      rw [hrest.smons c, hfirst.smons c]
    · intro ws hw hn
      obtain ⟨ws₁, hpack₁, hm₁, hlen⟩ := hfirst.packs ws hw.tx (hn s (mem_cons_self ..))
      have hcount := hw.ret
      have hn₁ : ∀ t ∈ l, Spelled (q₁.sinsts t).fqsn := by
        intro t ht
        rw [hothers t ht]
        exact hn t (mem_cons_of_mem _ ht)
      obtain ⟨ws', hpack', hw'⟩ := hrest.packs ws₁ ⟨hm₁, show (ws₁.length : Int) ≤ st.ret + ret by omega⟩ hn₁
      refine ⟨ws', ?_, hw'⟩
      have hattempts : l.flatMap (fun t => (q₁.sinsts t).attempts elapsed) =
          l.flatMap (fun t => (st.q.sinsts t).attempts elapsed) :=
        flatMap_congr (fun t ht => by rw [hothers t ht])
      rw [flatMap_cons, Box.pack_append, hpack₁, bind_some, ← hattempts]
      exact hpack'

end sinsts

section monitors
variable {st st₁ st₂ st' : Sched n k} {ws ws' : List Attempt} {all : Bool}

def PointsTo (ws : List Attempt) (ls : Labels) (off : Nat) : Prop :=
  ∃ before x after, ws = before ++ x :: after ∧ x.ask.1 = ls ∧ off = headerSize + datagram.load before

theorem PointsTo.mono {ls : Labels} {off : Nat} (h : PointsTo ws ls off) (hpre : ws <+: ws') : PointsTo ws' ls off := by
  obtain ⟨before, x, after, rfl, hx, hoff⟩ := h
  obtain ⟨more, rfl⟩ := hpre
  exact ⟨before, x, after ++ more, by simp, hx, hoff⟩

def Querier.SpelledAt (q : Querier n k) (c : Fin k) : Prop :=
  Mdns.Spelled (q.smons c).fqst ∧ ∀ s ∈ (q.smons c).sinsts, Mdns.Spelled (q.sinsts s).fqsn

theorem Querier.SpelledAt.congr (h : q.SpelledAt c) (hsmons : q'.smons c = q.smons c)
    (hsinsts : ∀ s ∈ (q.smons c).sinsts, q'.sinsts s = q.sinsts s) : q'.SpelledAt c := by
  unfold Querier.SpelledAt
  rw [hsmons]
  exact ⟨h.1, fun s hs => by rw [hsinsts s hs]; exact h.2 s hs⟩

structure Refreshes (c : Fin k) (elapsed : Nat) (st st' : Sched n k) : Prop where
  sinsts : st'.q.sinsts = st.q.sinsts
  smons : ∀ d, d ≠ c → st'.q.smons d = st.q.smons d
  members : (st'.q.smons c).sinsts = (st.q.smons c).sinsts
  fqst : (st'.q.smons c).fqst = (st.q.smons c).fqst
  due : (st'.q.smons c).nextRefresh = 0 ↔ (st.q.smons c).nextRefresh ≤ elapsed
  packs : ∀ ws, st.Packs ws → Spelled (st.q.smons c).fqst →
    ∃ ws', datagram.pack ws ((st.q.smons c).attempts elapsed) = some ws' ∧ st'.Packs ws' ∧
      ((st.q.smons c).nextRefresh ≤ elapsed → PointsTo ws' (plainLabels (st.q.smons c).fqst) (st'.q.smons c).fqstOffset)

theorem refreshes_of_refreshMonitor (h : refreshMonitor elapsed st c = (st₁, some st')) :
    Refreshes c elapsed st st' := by
  unfold refreshMonitor at h
  dsimp only at h
  split at h
  · next hdue =>
    split at h
    · cases h
    · next tx hask =>
      cases h
      have hself : update st.q.smons c ((st.q.smons c).refresh st.q.tx.cur) c = (st.q.smons c).refresh st.q.tx.cur :=
        update_self ..
      refine ⟨rfl, fun d hd => update_of_ne hd .., (congrArg ServiceMonitor.sinsts hself).trans rfl,
        (congrArg ServiceMonitor.fqst hself).trans rfl, ?_, fun ws hw hn => ?_⟩
      · show (update st.q.smons c _ c).nextRefresh = 0 ↔ _
        rw [hself]
        exact ⟨fun _ => hdue, fun _ => rfl⟩
      · obtain ⟨hroom, hfull⟩ := hw.tx.ask hn (show tAny < 65536 by decide) true
        have hfits : datagram.load ws + datagram.size ⟨(plainLabels (st.q.smons c).fqst, tAny), true⟩ ≤
          datagram.room := by
          by_contra hcon
          cases (hfull hcon).symm.trans hask
        obtain ⟨m', hask', hm'⟩ := hroom hfits
        cases hask'.symm.trans hask
        have hcount := hw.ret
        unfold ServiceMonitor.attempts
        rw [if_pos hdue, Box.pack_cons, if_pos hfits]
        refine ⟨_, rfl, ⟨hm', ?_⟩, fun _ => ⟨ws, _, [], rfl, rfl, ?_⟩⟩
        · show ((ws ++ [_]).length : Int) ≤ st.ret + 1
          rw [length_append]
          simpa using hcount
        · show (update st.q.smons c _ c).fqstOffset = _
          rw [hself]
          show st.q.tx.cur = _
          rw [hw.tx.holds.cur, load_datagram]
  · next hdue =>
    cases h
    have hself : update st.q.smons c
      { st.q.smons c with nextRefresh := subtract (st.q.smons c).nextRefresh elapsed } c =
        { st.q.smons c with nextRefresh := subtract (st.q.smons c).nextRefresh elapsed } := update_self ..
    refine ⟨rfl, fun d hd => update_of_ne hd .., (congrArg ServiceMonitor.sinsts hself).trans rfl,
      (congrArg ServiceMonitor.fqst hself).trans rfl, ?_,
        fun ws hw _ => ⟨ws, ?_, ⟨hw.tx, hw.ret⟩, fun hle => absurd hle hdue⟩⟩
    · show (update st.q.smons c _ c).nextRefresh = 0 ↔ _
      rw [hself]
      exact subtract_eq_zero
    · unfold ServiceMonitor.attempts
      rw [if_neg hdue]
      rfl

theorem refreshMonitor_crowded (h : refreshMonitor elapsed st c = (st', none)) (hw : st.Packs ws)
    (hn : Spelled (st.q.smons c).fqst) :
    datagram.pack ws ((st.q.smons c).attempts elapsed) = none ∧ st'.q.sinsts = st.q.sinsts ∧
      (∀ d, d ≠ c → st'.q.smons d = st.q.smons d) ∧ st'.q.tx.Packs ws := by
  unfold refreshMonitor at h
  unfold ServiceMonitor.attempts
  dsimp only at h
  split at h
  · next hdue =>
    rw [if_pos hdue, Box.pack_cons]
    split at h
    · next hask =>
      cases h
      refine ⟨?_, rfl, fun d hd => update_of_ne hd .., hw.tx⟩
      rw [if_neg]
      · rfl
      · intro hfits
        obtain ⟨m', hask', -⟩ := (hw.tx.ask hn (show tAny < 65536 by decide) true).1 hfits
        cases hask'.symm.trans hask
    · cases h
  · cases h

structure MonitorRound (c : Fin k) (elapsed : Nat) (st st' : Sched n k) : Prop where
  held : st'.q.Held
  others : ∀ t, t ∉ (st.q.smons c).sinsts → st'.q.sinsts t = st.q.sinsts t
  turned : ∀ s ∈ (st.q.smons c).sinsts, Turned elapsed (st.q.sinsts s) (st'.q.sinsts s)
  smons : ∀ d, d ≠ c → st'.q.smons d = st.q.smons d
  members : (st'.q.smons c).sinsts = (st.q.smons c).sinsts.filter (fun s => !(st.q.sinsts s).expires elapsed)
  fqst : (st'.q.smons c).fqst = (st.q.smons c).fqst
  due : (st'.q.smons c).nextRefresh = 0 ↔ (st.q.smons c).nextRefresh ≤ elapsed
  packs : ∀ ws, st.Packs ws → st.q.SpelledAt c →
    ∃ ws', datagram.pack ws (st.q.round elapsed c (st.q.smons c).sinsts) = some ws' ∧ st'.Packs ws' ∧
      ((st.q.smons c).nextRefresh ≤ elapsed → PointsTo ws' (plainLabels (st.q.smons c).fqst) (st'.q.smons c).fqstOffset)

theorem Querier.Held.apart (hq : q.Held) {d : Fin k} (hd : d ≠ c) {t : Fin n} (ht : t ∈ (q.smons d).sinsts) :
    t ∉ (q.smons c).sinsts := by
  intro hc
  have hown := ((hq.members.mem_iff d t).mp ht).2
  exact hd (some.inj (hown.symm.trans ((hq.members.mem_iff c t).mp hc).2))

theorem monitorRound_of_refreshes (hq : st.q.Held) (h : Refreshes c elapsed st st₂) (hq₂ : st₂.q.Held)
    (hrun : runAll (sinstSched elapsed) (st₂.q.smons c).sinsts st₂ = some st') : MonitorRound c elapsed st st' := by
  have hpass := sinstPass_of_runAll (hq₂.members.nodup c) hq₂ hrun
  have hlist : st₂.q.reg.members c = (st.q.smons c).sinsts := h.members
  rw [hlist] at hpass
  refine ⟨Effects.held (runAll_effects Sched.q (fun _ _ _ hs => sinstSched_effects hs) hrun) hq₂, ?_,
    ?_, ?_, ?_, ?_, ?_, ?_⟩
  · intro t ht
    rw [hpass.others t ht, h.sinsts]
  · intro s hs
    have hturn := hpass.turned s hs
    rw [h.sinsts] at hturn
    exact hturn
  · intro d hd
    have hsame : (st'.q.smons d).sinsts = (st.q.smons d).sinsts := by
      rw [hpass.members d, h.smons d hd]
      refine filter_eq_self.mpr (fun t ht => ?_)
      have hout : t ∉ (st.q.smons c).sinsts := hq.apart hd ht
      simp [hout]
    rw [hpass.smons d, hsame, h.smons d hd]
  · rw [hpass.members c, h.members, h.sinsts]
    exact filter_congr (fun s hs => by simp [hs])
  · rw [hpass.smons c]
    exact h.fqst
  · rw [hpass.smons c]
    exact h.due
  · intro ws hw hn
    obtain ⟨ws₂, hpack₂, hw₂, hpoints⟩ := h.packs ws hw hn.1
    obtain ⟨ws₃, hpack₃, hw₃⟩ := hpass.packs ws₂ hw₂ (fun s hs => by rw [h.sinsts]; exact hn.2 s hs)
    refine ⟨ws₃, ?_, hw₃, fun hle => ?_⟩
    · rw [h.sinsts] at hpack₃
      unfold Querier.round
      rw [Box.pack_append, hpack₂, bind_some]
      exact hpack₃
    · rw [hpass.smons c]
      exact (hpoints hle).mono (Box.pack_mem hpack₃).1

/-- The rounds of some monitors, out of those that the loop goes over. -/
structure MonitorTurns (done cs : List (Fin k)) (elapsed : Nat) (st st' : Sched n k) : Prop where
  others : ∀ t, (∀ c ∈ done, t ∉ (st.q.smons c).sinsts) → st'.q.sinsts t = st.q.sinsts t
  turned : ∀ c ∈ done, ∀ s ∈ (st.q.smons c).sinsts, Turned elapsed (st.q.sinsts s) (st'.q.sinsts s)
  smons : ∀ d, d ∉ cs → st'.q.smons d = st.q.smons d
  members : ∀ c ∈ done,
    (st'.q.smons c).sinsts = (st.q.smons c).sinsts.filter (fun s => !(st.q.sinsts s).expires elapsed)
  fqst : ∀ c ∈ done, (st'.q.smons c).fqst = (st.q.smons c).fqst
  due : ∀ c ∈ done, (st'.q.smons c).nextRefresh = 0 ↔ (st.q.smons c).nextRefresh ≤ elapsed

theorem MonitorTurns.cons {done cs : List (Fin k)} (h : MonitorRound c elapsed st st₁)
    (h' : MonitorTurns done cs elapsed st₁ st')
    (hq : st.q.Held) (hout : c ∉ cs) (hdone : ∀ d ∈ done, d ∈ cs) :
    MonitorTurns (c :: done) (c :: cs) elapsed st st' := by
  have hne : ∀ d ∈ done, d ≠ c := fun d hd he => hout (he ▸ hdone d hd)
  have hsame : ∀ d ∈ done, ∀ t ∈ (st.q.smons d).sinsts, st₁.q.sinsts t = st.q.sinsts t :=
    fun d hd t ht => h.others t (hq.apart (hne d hd) ht)
  have hkept : st'.q.smons c = st₁.q.smons c := h'.smons c hout
  constructor
  · intro t ht
    obtain ⟨htc, ht⟩ := forall_mem_cons.mp ht
    rw [h'.others t, h.others t htc]
    intro d hd
    rw [h.smons d (hne d hd)]
    exact ht d hd
  · refine forall_mem_cons.mpr ⟨fun s hs => ?_, fun d hd s hs => ?_⟩
    · have hlater : ∀ e ∈ done, s ∉ (st₁.q.smons e).sinsts := by
        intro e he hmem
        rw [h.smons e (hne e he)] at hmem
        exact hq.apart (hne e he) hmem hs
      rw [h'.others s hlater]
      exact h.turned s hs
    · have hturn := h'.turned d hd s (by rw [h.smons d (hne d hd)]; exact hs)
      rw [hsame d hd s hs] at hturn
      exact hturn
  · intro d hd
    obtain ⟨hdc, hd⟩ := not_or.mp (fun hor => hd (mem_cons.mpr hor))
    rw [h'.smons d hd, h.smons d hdc]
  · refine forall_mem_cons.mpr ⟨by rw [hkept]; exact h.members, fun d hd => ?_⟩
    rw [h'.members d hd, h.smons d (hne d hd)]
    exact filter_congr (fun t ht => by rw [hsame d hd t ht])
  · refine forall_mem_cons.mpr ⟨by rw [hkept]; exact h.fqst, fun d hd => ?_⟩
    rw [h'.fqst d hd, h.smons d (hne d hd)]
  · refine forall_mem_cons.mpr ⟨by rw [hkept]; exact h.due, fun d hd => ?_⟩
    rw [h'.due d hd, h.smons d (hne d hd)]

def Querier.rounds (q : Querier n k) (elapsed : Nat) (cs : List (Fin k)) : List Attempt :=
  cs.flatMap (fun c => q.round elapsed c (q.smons c).sinsts)

theorem round_congr (hsmons : q'.smons c = q.smons c) (hsinsts : ∀ s ∈ (q.smons c).sinsts, q'.sinsts s = q.sinsts s) :
    q'.round elapsed c (q'.smons c).sinsts = q.round elapsed c (q.smons c).sinsts := by
  unfold Querier.round
  rw [hsmons, flatMap_congr (fun s hs => by rw [hsinsts s hs])]

/-- The loop over the monitors: some of them have their rounds, and if these are not all, the
question of the next one has not found room. -/
theorem queryMonitors_rounds {cs : List (Fin k)} (hcs : cs.Nodup) (hq : st.q.Held)
    (h : queryMonitors elapsed cs st = some (st', all)) (hw : st.Packs ws) (hn : ∀ c ∈ cs, st.q.SpelledAt c) :
    ∃ done rest, cs = done ++ rest ∧ MonitorTurns done cs elapsed st st' ∧
      (all = true → rest = [] ∧ ∃ ws', datagram.pack ws (st.q.rounds elapsed cs) = some ws' ∧ st'.Packs ws' ∧
        ∀ c ∈ cs, (st.q.smons c).nextRefresh ≤ elapsed →
          PointsTo ws' (plainLabels (st.q.smons c).fqst) (st'.q.smons c).fqstOffset) ∧
      (all = false → (∃ ws', st'.q.tx.Packs ws') ∧ ∃ c more, rest = c :: more ∧
        datagram.pack ws (st.q.rounds elapsed done ++ (st.q.smons c).attempts elapsed) = none) := by
  induction cs generalizing st ws with
  | nil =>
    cases h
    exact ⟨[], [], rfl, ⟨fun _ _ => rfl, nofun, fun _ _ => rfl, nofun, nofun, nofun⟩,
      fun _ => ⟨rfl, ws, rfl, hw, nofun⟩, nofun⟩
  | cons c cs ih =>
    obtain ⟨hout, hcs⟩ := nodup_cons.mp hcs
    obtain ⟨hnc, hn⟩ := forall_mem_cons.mp hn
    unfold queryMonitors at h
    split at h
    · next st₁ heq =>
      cases h
      obtain ⟨hnone, hsame, hmons, htx⟩ := refreshMonitor_crowded heq hw hnc.1
      refine ⟨[], c :: cs, rfl, ⟨fun t _ => congrFun hsame t, nofun, fun d hd => ?_, nofun, nofun, nofun⟩, nofun,
        fun _ => ⟨⟨ws, htx⟩, c, cs, rfl, hnone⟩⟩
      exact hmons d (ne_of_not_mem_cons hd)
    · next st₁ st₂ heq =>
      simp only [bind_eq_bind, bind_eq_some_iff] at h
      obtain ⟨st₃, h₃, h⟩ := h
      have hq₂ : st₂.q.Held := Effects.held ((refreshMonitor_effects elapsed st c).2 st₂ (by rw [heq])) hq
      have hround := monitorRound_of_refreshes hq (refreshes_of_refreshMonitor heq) hq₂ h₃
      obtain ⟨ws₃, hpack₃, hw₃, hpoints⟩ := hround.packs ws hw hnc
      -- the other monitors and their instances are as they were
      have hother : ∀ d ∈ cs, st₃.q.smons d = st.q.smons d ∧ ∀ t ∈ (st.q.smons d).sinsts,
        st₃.q.sinsts t = st.q.sinsts t := by
        intro d hd
        have hdc : d ≠ c := fun he => hout (he ▸ hd)
        exact ⟨hround.smons d hdc, fun t ht => hround.others t (hq.apart hdc ht)⟩
      obtain ⟨done, rest, hsplit, hturns, hall, hnot⟩ := ih hcs hround.held h hw₃
        (fun d hd => (hn d hd).congr (hother d hd).1 (hother d hd).2)
      have hdone : ∀ d ∈ done, d ∈ cs := fun d hd => hsplit ▸ mem_append_left _ hd
      have hpack : ∀ ds, (∀ d ∈ ds, d ∈ cs) → ∀ ys, datagram.pack ws (st.q.rounds elapsed (c :: ds) ++ ys) =
          datagram.pack ws₃ (st₃.q.rounds elapsed ds ++ ys) := by
        intro ds hds ys
        unfold Querier.rounds
        rw [flatMap_cons, append_assoc, Box.pack_append, hpack₃, bind_some,
          flatMap_congr (fun d hd => round_congr (hother d (hds d hd)).1 (hother d (hds d hd)).2)]
      refine ⟨c :: done, rest, by rw [hsplit]; rfl, hturns.cons hround hq hout hdone, ?_, ?_⟩
      · intro ha
        obtain ⟨hnil, ws', hpack', hw', hpoints'⟩ := hall ha
        refine ⟨hnil, ws', ?_, hw', forall_mem_cons.mpr ⟨fun hle => ?_, fun d hd => ?_⟩⟩
        · have heq := hpack cs (fun _ hd => hd) []
          rw [append_nil, append_nil] at heq
          exact heq.trans hpack'
        · rw [hturns.smons c hout]
          exact (hpoints hle).mono (Box.pack_mem hpack').1
        · rw [← (hother d hd).1]
          exact hpoints' d hd
      · intro ha
        obtain ⟨htx, d, more, hrest, hnone⟩ := hnot ha
        refine ⟨htx, d, more, hrest, ?_⟩
        have hd : d ∈ cs := hsplit ▸ mem_append_right _ (hrest ▸ mem_cons_self ..)
        rw [hpack done hdone, ← (hother d hd).1]
        exact hnone

end monitors

section prepare
variable {st st₁ : Sched n k}

theorem mem_left : s ∈ q.left elapsed c ↔ s ∈ (q.smons c).sinsts ∧ q.evicted elapsed s = false := by
  unfold Querier.left
  rw [mem_filter, Bool.not_eq_true']

theorem arecPass_start (hq : q.Held) (h₁ : runAll (arecSched elapsed) q.arecsActive q.start = some st₁) :
    ArecPass q.arecsActive elapsed q.start st₁ := arecPass_of_runAll hq.hosts.onNodup hq h₁

theorem ArecPass.left (h : ArecPass q.arecsActive elapsed q.start st₁) (c : Fin k) :
    (st₁.q.smons c).sinsts = q.left elapsed c := h.loses.members c

theorem ArecPass.kept (h : ArecPass q.arecsActive elapsed q.start st₁) (hs : s ∈ q.left elapsed c) :
    st₁.q.sinsts s = q.sinsts s := h.loses.kept s (mem_left.mp hs).2

theorem ArecPass.rounds (h : ArecPass q.arecsActive elapsed q.start st₁) (cs : List (Fin k)) :
    st₁.q.rounds elapsed cs = cs.flatMap (fun c => q.round elapsed c (q.left elapsed c)) := by
  unfold Querier.rounds
  refine flatMap_congr (fun c _ => ?_)
  have hattempts : (st₁.q.smons c).attempts elapsed = (q.smons c).attempts elapsed := by
    rw [h.loses.smons c]
    rfl
  unfold Querier.round
  rw [h.left c, hattempts, flatMap_congr (fun s hs => by rw [h.kept hs])]

theorem ArecPass.spelledAt (h : ArecPass q.arecsActive elapsed q.start st₁) (hq : q.Held) (hs : q.Spelled)
    (hc : Spelled (q.smons c).fqst) : st₁.q.SpelledAt c := by
  constructor
  · rw [h.loses.smons c]
    exact hc
  · intro s hmem
    rw [h.left c] at hmem
    rw [h.kept hmem]
    exact hs.sinsts s ((hq.members.mem_iff c s).mp (mem_left.mp hmem).1).1

structure FirstPass (q : Querier n k) (elapsed : Nat) (ws : List Attempt) (st : Sched n k) : Prop where
  effects : Effects (fun _ => True) q st.q
  packed : datagram.pack [] (q.dueAttempts elapsed) = some ws
  packs : st.Packs ws
  active : st.q.smonsActive = q.smonsActive
  members : ∀ c ∈ q.smonsActive,
    (st.q.smons c).sinsts = (q.left elapsed c).filter (fun s => !(q.sinsts s).expires elapsed)
  turned : ∀ c ∈ q.smonsActive, ∀ s ∈ q.left elapsed c, Turned elapsed (q.sinsts s) (st.q.sinsts s)
  fqst : ∀ c ∈ q.smonsActive, (st.q.smons c).fqst = (q.smons c).fqst
  due : ∀ c ∈ q.smonsActive, (st.q.smons c).nextRefresh = 0 ↔ (q.smons c).nextRefresh ≤ elapsed
  points : ∀ c ∈ q.smonsActive, (q.smons c).nextRefresh ≤ elapsed →
    PointsTo ws (plainLabels (q.smons c).fqst) (st.q.smons c).fqstOffset

theorem prepareQuery_firstPass (hq : q.Held) (hs : q.Spelled) (hnames : ∀ c ∈ q.smonsActive, Spelled (q.smons c).fqst)
    (h : prepareQuery elapsed q = some st) :
    (datagram.pack [] (q.dueAttempts elapsed) = none ∧ ∃ ws, st.q.tx.Packs ws) ∨
      ∃ ws st₂, FirstPass q elapsed ws st₂ ∧ ((st₂.ret = 0 ∧ st = st₂) ∨
        (st₂.ret ≠ 0 ∧ st.q = (st₂.q.smonsActive.foldl answerMonitor st₂).q)) := by
  obtain ⟨st₁, st₂, all, h₁, h₂, hend⟩ := prepareQuery_ends h
  have hpass := arecPass_start hq h₁
  have hactive : st₁.q.smonsActive = q.smonsActive := (arecPass_leads h₁).q.monitors
  have heffects : Effects (fun _ => True) q st₁.q :=
    (Relation.ReflTransGen.single (.sends _)).trans (arecPass_effects h₁)
  obtain ⟨ws₁, hpack₁, hw₁⟩ := hpass.packs [] ⟨packs_mdnsQueryInit q.tx, Int.le_refl 0⟩ hs.arecs
  have hpack₁ : datagram.pack [] (q.arecsActive.flatMap (fun a => (q.arecs a).attempts elapsed)) = some ws₁ := hpack₁
  rw [hactive] at h₂
  obtain ⟨done, rest, hsplit, hturns, hall, hnot⟩ :=
    queryMonitors_rounds hq.owners.onNodup (Effects.held heffects hq) h₂ hw₁
    (fun c hc => hpass.spelledAt hq hs (hnames c hc))
  have hdue : datagram.pack [] (q.dueAttempts elapsed) = datagram.pack ws₁ (st₁.q.rounds elapsed q.smonsActive) := by
    unfold Querier.dueAttempts
    rw [Box.pack_append, hpack₁, bind_some, ← hpass.rounds]
  cases all with
  | false =>
    obtain ⟨⟨ws, hw⟩, c, more, rfl, hnone⟩ := hnot rfl
    refine .inl ⟨?_, ws, ?_⟩
    · rw [hdue, hsplit]
      unfold Querier.rounds Querier.round at hnone ⊢
      rw [flatMap_append, flatMap_cons, append_assoc, ← append_assoc, Box.pack_append, hnone]
      rfl
    · rcases hend with ⟨-, rfl⟩ | ⟨htrue, -⟩ | ⟨htrue, -⟩
      · exact hw
      · cases htrue
      · cases htrue
  | true =>
    obtain ⟨rfl, ws, hpack, hw, hpoints⟩ := hall rfl
    obtain rfl : q.smonsActive = done := hsplit.trans (append_nil done)
    have hfirst : FirstPass q elapsed ws st₂ := by
      constructor
      · exact heffects.trans (queryMonitors_effects h₂)
      · exact hdue.trans hpack
      · exact hw
      · exact (queryMonitors_leads h₂).1.q.monitors.trans hactive
      · intro c hc
        rw [hturns.members c hc, hpass.left c]
        exact filter_congr (fun s hs => by rw [hpass.kept hs])
      · intro c hc s hs
        have hturn := hturns.turned c hc s (by rw [hpass.left c]; exact hs)
        rw [hpass.kept hs] at hturn
        exact hturn
      · intro c hc
        rw [hturns.fqst c hc, hpass.loses.smons c]
        rfl
      · intro c hc
        rw [hturns.due c hc, hpass.loses.smons c]
        rfl
      · intro c hc hle
        have hpoint := hpoints c hc
        rw [hpass.loses.smons c] at hpoint
        exact hpoint hle
    refine .inr ⟨ws, st₂, hfirst, ?_⟩
    rcases hend with ⟨hfalse, -⟩ | ⟨-, hzero, rfl⟩ | ⟨-, hzero, rfl⟩
    · cases hfalse
    · exact .inl ⟨hzero, rfl⟩
    · exact .inr ⟨hzero, rfl⟩

end prepare

end Mdns
