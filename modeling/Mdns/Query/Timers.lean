import Mdns.Query.Evolve
import Mdns.Query.Invariant

/-!
# The timers of the querier

The delays are percentages of a TTL, taken by a product of 32 bits: they are right for a TTL of up
to 53687 seconds. Whatever the delays are, no timer is missed.
-/
namespace Mdns
open Lib Relation List Option

variable {n k : Nat}

section delay
variable {i j : ServiceInstance n k}

def ttlMs (ttl : Nat) : Nat := min (1000 * ttl) uint32Max

theorem convertTtl_eq (ttl : Nat) : convertTtl ttl = ttlMs ttl := by
  have hmax : uint32Max = 4294967295 := rfl
  unfold convertTtl ttlMs
  split <;> omega

theorem ttlMs_mono {t t' : Nat} (h : t ≤ t') : ttlMs t ≤ ttlMs t' := by
  unfold ttlMs
  omega

theorem add32_mono {x y elapsed : Nat} (h : x ≤ y) (he : elapsed ≤ uint32Max) : add32 x elapsed ≤ add32 y elapsed := by
  unfold add32
  split <;> split <;> omega

theorem percent_exact {ms p : Nat} (h : ms * 80 < 2 ^ 32) (hp : p ≤ 80) : percent ms p = ms * p / 100 := by
  have hle : ms * p ≤ ms * 80 := Nat.mul_le_mul_left ms hp
  unfold percent
  rw [Nat.mod_eq_of_lt (by omega)]

theorem lt_of_percent_exact {ms : Nat} (h : percent ms 80 = ms * 80 / 100) : ms * 80 < 2 ^ 32 := by
  unfold percent at h
  omega

theorem ttlMs_fits_iff (ttl : Nat) : ttlMs ttl * 80 < 2 ^ 32 ↔ ttl ≤ 53687 := by
  have hmax : uint32Max = 4294967295 := rfl
  unfold ttlMs
  omega

def ServiceInstance.Made (i : ServiceInstance n k) : Prop := ReflTransGen SinstChange {} i
def ARec.Made (r : ARec n) : Prop := ReflTransGen ArecChange { sinsts := [] } r

theorem updateTxt_ttlPercent {fuel : Nat} {p : Mem} {r : Resource} {ret : Int}
    (h : updateTxt fuel i p r = some (j, ret)) : j.ttlPercent = i.ttlPercent := by
  rcases updateTxt_eq_some h with ⟨rfl, -⟩ | ⟨keyvals, raw, len, rfl, -⟩ <;> rfl

theorem SinstChange.ttlPercent_le (h : SinstChange i j) (hi : i.ttlPercent ≤ 20) :
    j.ttlPercent ≤ 20 := by
  cases h with
  | blank _ => exact Nat.le_refl 20
  | named hcopy =>
    obtain ⟨name, _, _, _, _, -, rfl⟩ := copyServinfo_eq_some hcopy
    exact Nat.le_refl 20
  | heard _ => exact hi
  | texted htxt => exact (updateTxt_ttlPercent htxt).trans_le hi
  | ported _ => exact hi
  | hosted r a =>
    have hsame : (takeAddress i r).ttlPercent = i.ttlPercent := by
      unfold takeAddress
      split <;> rfl
    exact hsame.trans_le hi
  | homeless => exact hi
  | served _ _ => exact Nat.le_refl 20
  | told _ => exact hi
  | ages _ => exact hi
  | asked _ => exact (Nat.div_le_self i.ttlPercent 2).trans hi
  | stale => exact hi
  | retired => exact hi

theorem ArecChange.ttlPercent_le {r r' : ARec n} (h : ArecChange r r') (hr : r.ttlPercent ≤ 10) :
    r'.ttlPercent ≤ 10 := by
  cases h with
  | fresh _ => exact Nat.zero_le 10
  | listed _ => exact hr
  | addressed _ => exact hr
  | resolved => exact hr
  | timed _ => exact Nat.le_refl 10
  | ages _ => exact hr
  | launched => exact Nat.le_refl 10
  | retried _ => exact (Nat.div_le_self r.ttlPercent 2).trans hr
  | refreshed => exact Nat.le_refl 10
  | retired => exact hr

theorem ServiceInstance.Made.ttlPercent_le (h : i.Made) : i.ttlPercent ≤ 20 :=
  keeps_of_reflTransGen (P := fun i : ServiceInstance n k => i.ttlPercent ≤ 20) (fun _ _ hc hi => hc.ttlPercent_le hi) h
    (Nat.le_refl 20)

theorem ARec.Made.ttlPercent_le {r : ARec n} (h : r.Made) : r.ttlPercent ≤ 10 :=
  keeps_of_reflTransGen (P := fun r : ARec n => r.ttlPercent ≤ 10) (fun _ _ hc hr => hc.ttlPercent_le hr) h
    (Nat.zero_le 10)

/-- The delays that a TTL gives rise to: 80 percent of it when its SRV or A record comes, and the
percentages of the questions after that. -/
structure RefreshExact (ttl : Nat) : Prop where
  srv : ∀ {n k fuel elapsed : Nat} {q q' : Querier n k} {s : Fin n} {m : Message} {r : Resource} {ret : Int},
    r.ttl = ttl → ttl ≠ 0 → updateSrv fuel q s m r elapsed = some (q', ret) →
    (q'.sinsts s).srvTtl0 = ttlMs ttl ∧ (q'.sinsts s).nextRefresh = add32 (ttlMs ttl * 80 / 100) elapsed
  arec : ∀ {n k : Nat} {q q' : Querier n k} {a : Fin n} {m : Message} {r : Resource},
    r.ttl = ttl → setIp q a m r = some q' →
    (q'.arecs a).ttl = ttlMs ttl ∧ (q'.arecs a).nextRefresh = ttlMs ttl * 80 / 100
  srvAgain : ∀ {n k elapsed : Nat} {q q' : Querier n k} {s : Fin n} {ret : Int}, (q.sinsts s).Made →
    (q.sinsts s).srvTtl0 = ttlMs ttl → (q.sinsts s).nextRefresh ≤ elapsed → 5 ≤ (q.sinsts s).ttlPercent →
    applyElapsed q s elapsed = some (q', ret) →
    (q'.sinsts s).nextRefresh =
      ttlMs ttl * (if (q.sinsts s).ttlPercent = 20 then 80 else (q.sinsts s).ttlPercent) / 100
  arecAgain : ∀ {n k elapsed : Nat} {q q' : Querier n k} {a : Fin n}, (q.arecs a).Made → (q.arecs a).state ≠ .init →
    (q.arecs a).ttl = ttlMs ttl → updateArecAdd q a elapsed = some (q', 1) →
    (q'.arecs a).nextRefresh =
      ttlMs ttl * (if (q.arecs a).state = .resolved then 10 else (q.arecs a).ttlPercent / 2) / 100
  srvLater : ∀ {n k fuel elapsed : Nat} {q q₁ q₂ : Querier n k} {s : Fin n} {m : Message} {r r' : Resource}
    {ret ret' : Int}, r.ttl = ttl → r'.ttl ≤ ttl → r'.ttl ≠ 0 → elapsed ≤ uint32Max →
    updateSrv fuel q s m r elapsed = some (q₁, ret) →
    updateSrv fuel q s m r' elapsed = some (q₂, ret') → (q₂.sinsts s).nextRefresh ≤ (q₁.sinsts s).nextRefresh
  arecLater : ∀ {n k : Nat} {q q₁ q₂ : Querier n k} {a : Fin n} {m : Message} {r r' : Resource},
    r.ttl = ttl → r'.ttl ≤ ttl → setIp q a m r = some q₁ → setIp q a m r' = some q₂ →
    (q₂.arecs a).nextRefresh ≤ (q₁.arecs a).nextRefresh

variable {q q' : Querier n k} {s a : Fin n} {m : Message} {r : Resource} {fuel elapsed : Nat} {ret : Int}

theorem updateSrv_times (httl : r.ttl ≠ 0) (h : updateSrv fuel q s m r elapsed = some (q', ret)) :
    (q'.sinsts s).srvTtl0 = ttlMs r.ttl ∧ (q'.sinsts s).nextRefresh = add32 (percent (ttlMs r.ttl) 80) elapsed := by
  rcases updateSrv_eq_some h with ⟨hzero, -, -⟩ | ⟨-, q₁, moved, -, rfl, -⟩
  · exact absurd hzero httl
  · rw [setSinst_self, ← convertTtl_eq]
    exact ⟨rfl, rfl⟩

theorem setIp_times (h : setIp q a m r = some q') :
    (q'.arecs a).ttl = ttlMs r.ttl ∧ (q'.arecs a).nextRefresh = percent (ttlMs r.ttl) 80 := by
  unfold setIp at h
  simp only [bind_eq_bind, bind_eq_some_iff, Option.pure_def, some.injEq] at h
  obtain ⟨q₁, -, rfl⟩ := h
  rw [setArec_self, ← convertTtl_eq]
  exact ⟨rfl, rfl⟩

theorem applyElapsed_times (hdue : (q.sinsts s).nextRefresh ≤ elapsed) (hp : 5 ≤ (q.sinsts s).ttlPercent)
    (h : applyElapsed q s elapsed = some (q', ret)) :
    (q'.sinsts s).nextRefresh =
      percent (q.sinsts s).srvTtl0 (if (q.sinsts s).ttlPercent = 20 then 80 else (q.sinsts s).ttlPercent) := by
  have hzero : ((q.sinsts s).age elapsed).nextRefresh = 0 := subtract_eq_zero.mpr hdue
  cases ages_of_applyElapsed h with
  | waits hne => exact absurd hzero hne
  | asks _ _ _ => rw [setSinst_self]; rfl
  | crowded _ _ _ => rw [setSinst_self]; rfl
  | expires _ hlow _ => omega

theorem updateArecAdd_times (hst : (q.arecs a).state ≠ .init) (h : updateArecAdd q a elapsed = some (q', 1)) :
    (q'.arecs a).nextRefresh =
      percent (q.arecs a).ttl (if (q.arecs a).state = .resolved then 10 else (q.arecs a).ttlPercent / 2) := by
  cases arecTurn_of_updateArecAdd h with
  | launches hinit => exact absurd hinit hst
  | retries hq _ _ =>
    unfold askArec
    rw [setArec_self, hq]
    rfl
  | refreshes hr _ =>
    unfold askArec
    rw [setArec_self, hr]
    rfl

theorem refreshExact_of_le {ttl : Nat} (h : ttl ≤ 53687) : RefreshExact ttl := by
  have hfits := (ttlMs_fits_iff ttl).mpr h
  have hexact : percent (ttlMs ttl) 80 = ttlMs ttl * 80 / 100 := percent_exact hfits (Nat.le_refl 80)
  -- a shorter TTL is exact as well, and 80 percent of it are not more
  have hshorter : ∀ t ≤ ttl, percent (ttlMs t) 80 ≤ percent (ttlMs ttl) 80 := by
    intro t ht
    have ht' := (ttlMs_fits_iff t).mpr (ht.trans h)
    rw [hexact, percent_exact ht' (Nat.le_refl 80)]
    exact Nat.div_le_div_right (Nat.mul_le_mul_right 80 (ttlMs_mono ht))
  constructor
  · intro n k fuel elapsed q q' s m r ret hr hne hu
    obtain ⟨hms, hnext⟩ := updateSrv_times (hr ▸ hne) hu
    rw [hr] at hms hnext
    exact ⟨hms, by rw [hnext, hexact]⟩
  · intro n k q q' a m r hr hu
    obtain ⟨hms, hnext⟩ := setIp_times hu
    rw [hr] at hms hnext
    exact ⟨hms, by rw [hnext, hexact]⟩
  · intro n k elapsed q q' s ret hmade hms hdue hp hu
    have hle := hmade.ttlPercent_le
    rw [applyElapsed_times hdue hp hu, hms]
    apply percent_exact hfits
    split <;> omega
  · intro n k elapsed q q' a hmade hst hms hu
    have hle := hmade.ttlPercent_le
    rw [updateArecAdd_times hst hu, hms]
    apply percent_exact hfits
    split <;> omega
  · intro n k fuel elapsed q q₁ q₂ s m r r' ret ret' hr hle hne helapsed hu hu'
    have hne' : r.ttl ≠ 0 := by omega
    rw [(updateSrv_times hne' hu).2, (updateSrv_times hne hu').2, hr]
    exact add32_mono (hshorter r'.ttl hle) helapsed
  · intro n k q q₁ q₂ a m r r' hr hle hu hu'
    rw [(setIp_times hu).2, (setIp_times hu').2, hr]
    exact hshorter r'.ttl hle

theorem setIp_same (h : (q.arecs a).ipaddr = getUint32 m.data r.rdata) : ∃ q', setIp q a m r = some q' := by
  unfold setIp alertIp
  rw [if_pos h]
  exact ⟨_, rfl⟩

theorem le_of_refreshExact {ttl : Nat} (h : RefreshExact ttl) : ttl ≤ 53687 := by
  -- an A record for the address that an unused record has
  let m : Message := { data := [0, 0, 0, 0], mend := 0, cur := 0 }
  let r : Resource := { name := 0, type := tA, cls := cIn, ttl, rdlength := 4, rdata := 0 }
  have hunset : ((queryLaunch 1 1).arecs 0).ipaddr = getUint32 [0, 0, 0, 0] 0 := by decide
  obtain ⟨q', hq'⟩ := setIp_same (q := queryLaunch 1 1) (a := 0) (m := m) (r := r) hunset
  have hcode := (setIp_times hq').2
  rw [(h.arec rfl hq').2] at hcode
  exact (ttlMs_fits_iff ttl).mp (lt_of_percent_exact hcode.symm)

/-- The delays are right for a TTL of at most 53687 seconds, which is not quite 15 hours. -/
theorem refreshExact_iff (ttl : Nat) : RefreshExact ttl ↔ ttl ≤ 53687 :=
  ⟨le_of_refreshExact, refreshExact_of_le⟩

/-- An A record that is good for 53688 seconds is asked for again after 727 ms. -/
theorem refreshExact_fails :
    ((setIp (queryLaunch 1 1) 0 { data := [0, 0, 0, 0], mend := 0, cur := 0 }
      { name := 0, type := tA, cls := cIn, ttl := 53688, rdlength := 4, rdata := 0 }).map
        (fun q => (q.arecs 0).nextRefresh)) = some 727 ∧ ttlMs 53688 * 80 / 100 = 42950400 ∧ ¬ RefreshExact 53688 := by
  refine ⟨by decide +kernel, by decide, ?_⟩
  intro h
  exact absurd (le_of_refreshExact h) (by decide)

end delay

section sleep
variable {own own' : List (Fin n)} {q q₁ q' : Querier n k} {s a : Fin n} {c : Fin k} {elapsed : Nat}

/-- A call that starts no timer but those of its own instances: the others go on, or are stopped
with their instance. -/
structure Stills (own : List (Fin n)) (q q' : Querier n k) : Prop where
  sinsts : ∀ t, t ∉ own → (q'.sinsts t).nextRefresh = (q.sinsts t).nextRefresh ∨ (q'.sinsts t).nextRefresh = uint32Max
  smons : ∀ c, (q'.smons c).nextRefresh = (q.smons c).nextRefresh

theorem Stills.trans (h : Stills own q q₁) (h' : Stills own' q₁ q') : Stills (own ++ own') q q' where
  sinsts t ht := by
    obtain ⟨hout, hout'⟩ := not_or.mp (fun hor => ht (mem_append.mpr hor))
    rcases h'.sinsts t hout' with hsame | hmax
    · rw [hsame]
      exact h.sinsts t hout
    · exact .inr hmax
  smons c := (h'.smons c).trans (h.smons c)

theorem stills_of_eq (hs : q'.sinsts = q.sinsts) (hm : q'.smons = q.smons) : Stills [] q q' :=
  ⟨fun _ _ => .inl (by rw [hs]), fun _ => by rw [hm]⟩

theorem stills_setSinst (q : Querier n k) (s : Fin n) (i : ServiceInstance n k) : Stills [s] q (q.setSinst s i) where
  sinsts t ht := by
    rw [setSinst_others q s i (fun he => ht (mem_singleton.mpr he))]
    exact .inl rfl
  smons _ := rfl

theorem stills_setState (q : Querier n k) (s : Fin n) (state : SinstState) : Stills [] q (q.setState s state) where
  sinsts t _ := by
    unfold Querier.setState
    by_cases hts : t = s
    · rw [hts, setSinst_self]
      exact .inl rfl
    · rw [setSinst_others q s _ hts]
      exact .inl rfl
  smons _ := rfl

theorem stills_callbackOn {status : Status} (h : callbackOn q s status = some q') : Stills [] q q' := by
  obtain ⟨d, -, rfl⟩ := callbackOn_eq_some.mp h
  exact stills_of_eq rfl rfl

theorem Cleaned.stills (h : Cleaned q s q') : Stills [] q q' where
  sinsts t _ := by
    rw [h.sinsts]
    by_cases hts : t = s
    · rw [hts, Function.update_self]
      exact .inr rfl
    · rw [Function.update_of_ne hts]
      exact .inl rfl
  smons c := by rw [h.smons c]

theorem Ages.stills {ret : Int} (h : Ages q s elapsed q' ret) : Stills [s] q q' := by
  cases h with
  | waits _ => exact stills_setSinst q s _
  | @asks tx _ _ _ =>
    have htx : Stills [] q { q with tx } := stills_of_eq rfl rfl
    exact htx.trans (stills_setSinst _ s _)
  | crowded _ _ _ => exact stills_setSinst q s _
  | expires _ _ hclean => exact (stills_setSinst q s _).trans (cleaned_of_cleanupSinst hclean).stills

theorem Reacts.stills {changes : Int} (h : Reacts q s changes elapsed .addQuestions q') : Stills [s] q q' := by
  cases h with
  | aged ha _ => exact (ages_of_applyElapsed ha).stills
  | @asked q₁ _ ha =>
    have hset := (ages_of_applyElapsed ha).stills.trans (stills_setSinst q₁ s { q₁.sinsts s with hasSrv := false })
    have hall := hset.trans (stills_setState _ s .updating)
    exact ⟨fun t ht => hall.sinsts t (by simpa using ht), hall.smons⟩
  | expired _ ha => exact (ages_of_applyElapsed ha).stills
  | expiredShown _ ha hcb => exact (ages_of_applyElapsed ha).stills.trans (stills_callbackOn hcb)

theorem alertSinst_stills (h : alertSinst .lostArec q s = some q') : Stills [] q q' := by
  obtain ⟨q₂, changes, hc, hr⟩ := alertSinst_eq_some h
  cases hc
  cases hr with
  | lost _ hclean => exact (cleaned_of_cleanupSinst hclean).stills
  | lostShown _ hclean hcb => exact (cleaned_of_cleanupSinst hclean).stills.trans (stills_callbackOn hcb)

theorem evictArec_stills (h : evictArec q a = some q') : Stills [] q q' := by
  obtain ⟨q₁, h₁, -, rfl⟩ := evictArec_eq_some h
  have hall : Stills [] q q₁ := runAll_keeps (I := fun q₁ => Stills [] q q₁)
    (fun _ _ _ hs hI => hI.trans (alertSinst_stills hs)) h₁ (stills_of_eq rfl rfl)
  exact ⟨hall.sinsts, hall.smons⟩

theorem ArecTurn.stills {ret : Int} (h : ArecTurn q a elapsed q' ret) : Stills [] q q' := by
  cases h with
  | launches _ => exact stills_of_eq rfl rfl
  | waits _ _ => exact stills_of_eq rfl rfl
  | retries _ _ _ => exact stills_of_eq rfl rfl
  | refreshes _ _ => exact stills_of_eq rfl rfl
  | evicts _ _ _ hevict =>
    have hage : Stills [] q (q.setArec a ((q.arecs a).age elapsed)) := stills_of_eq rfl rfl
    exact hage.trans (evictArec_stills hevict)

end sleep

section passes
variable {elapsed : Nat} {st st₁ st' : Sched n k} {cs : List (Fin k)} {q : Querier n k}

/-- What a pass of `prepare_query` does to the timers: each of them is as it was, or the time of
the next event has been brought down to it. A monitor may also wait for the second pass, which
only comes if a question has been asked. -/
structure Sched.Watches (st st' : Sched n k) : Prop where
  next : st'.next ≤ st.next
  ret : st.ret ≤ st'.ret
  arecs : ∀ a, (st'.q.arecs a).nextRefresh = (st.q.arecs a).nextRefresh ∨ st'.next ≤ (st'.q.arecs a).nextRefresh
  sinsts : ∀ s, (st'.q.sinsts s).nextRefresh = (st.q.sinsts s).nextRefresh ∨ st'.next ≤ (st'.q.sinsts s).nextRefresh
  smons : ∀ c, (st'.q.smons c).nextRefresh = (st.q.smons c).nextRefresh ∨
    (0 < (st'.q.smons c).nextRefresh ∧ st'.next ≤ (st'.q.smons c).nextRefresh) ∨
    ((st'.q.smons c).nextRefresh = 0 ∧ st.ret < st'.ret)

theorem Sched.Watches.refl (st : Sched n k) : st.Watches st :=
  ⟨Nat.le_refl _, Int.le_refl _, fun _ => .inl rfl, fun _ => .inl rfl, fun _ => .inl rfl⟩

theorem Sched.Watches.trans (h : st.Watches st₁) (h' : st₁.Watches st') : st.Watches st' where
  next := h'.next.trans h.next
  ret := h.ret.trans h'.ret
  arecs a := by
    rcases h'.arecs a with hsame | hseen
    · rw [hsame]
      exact (h.arecs a).imp_right (h'.next.trans ·)
    · exact .inr hseen
  sinsts s := by
    rcases h'.sinsts s with hsame | hseen
    · rw [hsame]
      exact (h.sinsts s).imp_right (h'.next.trans ·)
    · exact .inr hseen
  smons c := by
    have hnext := h'.next
    have hret := h.ret
    have hret' := h'.ret
    rcases h'.smons c with hsame | hseen | hpending
    · rw [hsame]
      rcases h.smons c with hsame | hseen | hpending
      · exact .inl hsame
      · exact .inr (.inl ⟨hseen.1, hnext.trans hseen.2⟩)
      · exact .inr (.inr ⟨hpending.1, by omega⟩)
    · exact .inr (.inl hseen)
    · exact .inr (.inr ⟨hpending.1, by omega⟩)

theorem arecSched_watches {a : Fin n} (h : arecSched elapsed st a = some st') (hmax : st.next ≤ uint32Max) :
    st.Watches st' ∧ st'.next ≤ (st'.q.arecs a).nextRefresh := by
  obtain ⟨ret, hturn, hret, hnext⟩ := arecSched_eq_some h
  have hnonneg := hturn.ret_nonneg
  have hle : st'.next ≤ st.next := hnext.trans_le (Nat.min_le_left _ _)
  have hseen : st'.next ≤ (st'.q.arecs a).nextRefresh := hnext.trans_le (Nat.min_le_right _ _)
  refine ⟨⟨hle, by omega, ?_, ?_, fun c => .inl (hturn.stills.smons c)⟩, hseen⟩
  · intro b
    by_cases hb : b = a
    · rw [hb]
      exact .inr hseen
    · rw [hturn.proceeds.others b (fun hmem => hb (mem_singleton.mp hmem))]
      exact .inl rfl
  · intro s
    exact (hturn.stills.sinsts s not_mem_nil).imp_right (fun heq => by rw [heq]; exact hle.trans hmax)

theorem sinstSched_watches {s : Fin n} (h : sinstSched elapsed st s = some st') (hmax : st.next ≤ uint32Max) :
    st.Watches st' ∧ st'.next ≤ (st'.q.sinsts s).nextRefresh := by
  have hleads := sinstSched_leads h
  obtain ⟨q₁, ret, hu, h⟩ := bind_pair_eq_some.mp h
  cases h
  obtain ⟨q₂, changes, hc, hr⟩ := updateSinst_eq_some hu
  cases hc
  have hstills := hr.stills
  refine ⟨⟨hleads.next, hleads.ret, ?_, ?_, fun c => .inl (hstills.smons c)⟩, Nat.min_le_right _ _⟩
  · intro a
    rw [hleads.q.others a not_mem_nil]
    exact .inl rfl
  · intro t
    by_cases hts : t = s
    · rw [hts]
      exact .inr (Nat.min_le_right _ _)
    · have hout : t ∉ [s] := fun hmem => hts (mem_singleton.mp hmem)
      exact (hstills.sinsts t hout).imp_right (fun heq => by rw [heq]; exact hleads.next.trans hmax)

theorem runAll_watches {α : Type} {f : Sched n k → α → Option (Sched n k)} (timer : Querier n k → α → Nat)
    (hstep : ∀ st x st', f st x = some st' → st.next ≤ uint32Max → st.Watches st' ∧ st'.next ≤ timer st'.q x)
    (hkeep : ∀ (st st' : Sched n k) (x : α), st.Watches st' → timer st'.q x = timer st.q x ∨ st'.next ≤ timer st'.q x)
    {l : List α} (h : runAll f l st = some st') (hmax : st.next ≤ uint32Max) :
    st.Watches st' ∧ ∀ x ∈ l, st'.next ≤ timer st'.q x := by
  induction l generalizing st with
  | nil =>
    cases h
    exact ⟨.refl _, nofun⟩
  | cons x l ih =>
    obtain ⟨st₁, hx, h⟩ := runAll_cons_eq_some.mp h
    obtain ⟨hfirst, hseen⟩ := hstep st x st₁ hx hmax
    obtain ⟨hrest, hall⟩ := ih h (hfirst.next.trans hmax)
    refine ⟨hfirst.trans hrest, ?_⟩
    intro y hy
    rcases mem_cons.mp hy with rfl | hy
    · rcases hkeep st₁ st' y hrest with hsame | hle
      · rw [hsame]
        exact hrest.next.trans hseen
      · exact hle
    · exact hall y hy

theorem refreshMonitor_watches {c : Fin k} (h : refreshMonitor elapsed st c = (st₁, some st')) :
    st.Watches st' ∧ ((0 < (st'.q.smons c).nextRefresh ∧ st'.next ≤ (st'.q.smons c).nextRefresh) ∨
      ((st'.q.smons c).nextRefresh = 0 ∧ st.ret < st'.ret)) := by
  unfold refreshMonitor at h
  dsimp only at h
  split at h
  · split at h
    · cases h
    · next tx _ =>
      cases h
      have hpending : (({ st.q with tx }.setSmon c ((st.q.smons c).refresh st.q.tx.cur)).smons c).nextRefresh = 0 := by
        rw [setSmon_self]
        rfl
      have hret : st.ret < st.ret + 1 := by omega
      refine ⟨⟨Nat.le_refl _, hret.le, fun _ => .inl rfl, fun _ => .inl rfl, ?_⟩, .inr ⟨hpending, hret⟩⟩
      intro d
      by_cases hd : d = c
      · rw [hd]
        exact .inr (.inr ⟨hpending, hret⟩)
      · exact .inl (congrArg ServiceMonitor.nextRefresh (setSmon_others { st.q with tx } c _ hd))
  · next hlate =>
    cases h
    have hleft : 0 < subtract (st.q.smons c).nextRefresh elapsed :=
      Nat.pos_of_ne_zero (fun hzero => hlate (subtract_eq_zero.mp hzero))
    have hseen : ∀ mon : ServiceMonitor n, mon.nextRefresh = subtract (st.q.smons c).nextRefresh elapsed →
        0 < ((st.q.setSmon c mon).smons c).nextRefresh ∧
          min st.next (subtract (st.q.smons c).nextRefresh elapsed) ≤ ((st.q.setSmon c mon).smons c).nextRefresh := by
      intro mon hmon
      rw [setSmon_self, hmon]
      exact ⟨hleft, Nat.min_le_right _ _⟩
    refine ⟨⟨Nat.min_le_left _ _, Int.le_refl _, fun _ => .inl rfl, fun _ => .inl rfl, ?_⟩, .inl (hseen _ rfl)⟩
    intro d
    by_cases hd : d = c
    · rw [hd]
      exact .inr (.inl (hseen _ rfl))
    · exact .inl (congrArg ServiceMonitor.nextRefresh (setSmon_others st.q c _ hd))

theorem queryMonitors_watches (h : queryMonitors elapsed cs st = some (st', true))
    (hmax : st.next ≤ uint32Max) :
    st.Watches st' ∧ (∀ c ∈ cs, (0 < (st'.q.smons c).nextRefresh ∧ st'.next ≤ (st'.q.smons c).nextRefresh) ∨
        ((st'.q.smons c).nextRefresh = 0 ∧ st.ret < st'.ret)) ∧
      ∀ c ∈ cs, ∀ s ∈ (st'.q.smons c).sinsts, st'.next ≤ (st'.q.sinsts s).nextRefresh := by
  induction cs generalizing st with
  | nil =>
    cases h
    exact ⟨.refl _, nofun, nofun⟩
  | cons c cs ih =>
    unfold queryMonitors at h
    split at h
    · cases h
    · next st₁ st₂ heq =>
      simp only [bind_eq_bind, bind_eq_some_iff] at h
      obtain ⟨st₃, h₃, h⟩ := h
      obtain ⟨hfirst, hmon⟩ := refreshMonitor_watches heq
      obtain ⟨hpass, hown⟩ := runAll_watches (fun q s => (q.sinsts s).nextRefresh)
        (fun _ _ _ hs => sinstSched_watches hs) (fun _ _ s hw => hw.sinsts s) h₃ (hfirst.next.trans hmax)
      have hmembers := (sinstPass_leads h₃).q.members c
      have hmembers' := (queryMonitors_leads h).1.q.members c
      obtain ⟨hrest, hmons, hothers⟩ := ih h ((hfirst.trans hpass).next.trans hmax)
      have hlater := hpass.trans hrest
      have hret := hfirst.ret
      have hret' := hlater.ret
      refine ⟨hfirst.trans hlater, ?_, ?_⟩
      · intro d hd
        rcases mem_cons.mp hd with rfl | hd
        · rcases hlater.smons d with hsame | hseen | hpending
          · rw [hsame]
            rcases hmon with hseen | hpending
            · exact .inl ⟨hseen.1, hlater.next.trans hseen.2⟩
            · exact .inr ⟨hpending.1, by omega⟩
          · exact .inl hseen
          · exact .inr ⟨hpending.1, by omega⟩
        · have hret₃ := hpass.ret
          exact (hmons d hd).imp_right (fun hpending => ⟨hpending.1, by omega⟩)
      · intro d hd s hs
        rcases mem_cons.mp hd with rfl | hd
        · have hold := hmembers.subset (hmembers'.subset hs)
          rcases hrest.sinsts s with hsame | hseen
          · rw [hsame]
            exact hrest.next.trans (hown s hold)
          · exact hseen
        · exact hothers d hd s hs

def Querier.Periodic (q : Querier n k) : Prop := ∀ c ∈ q.smonsActive, 0 < (q.smons c).refreshPeriod

theorem SmonChange.period_pos {mon mon' : ServiceMonitor n} (h : SmonChange mon mon') (hm : 0 < mon.refreshPeriod) :
    0 < mon'.refreshPeriod := by
  cases h with
  | listed _ => exact hm
  | due _ =>
    show 0 < if mon.refreshPeriod > 30000 then 60000 else mon.refreshPeriod * 2
    split <;> omega
  | waits _ => exact hm

theorem newMonitor_period_pos (fqst : Mem) (session : Nat) :
    0 < (newMonitor fqst session : ServiceMonitor n).refreshPeriod :=
  Nat.zero_lt_succ 999

theorem periodic_of_effects {ok : Mem → Prop} {q' : Querier n k} (h : Effects ok q q')
    (hq : q.Periodic) : q'.Periodic :=
  (evolves_of_effects h).smons_keep (P := fun mon => 0 < mon.refreshPeriod) newMonitor_period_pos
    (fun _ _ hc hm => hc.period_pos hm) hq

theorem Run.periodic {G : Guard n k} (h : Run G q) : q.Periodic :=
  h.keeps nofun (fun _ _ he hq => periodic_of_effects (.single he) hq)

theorem answerMonitor_watches {c : Fin k} (hp : 0 < (st.q.smons c).refreshPeriod) :
    st.Watches (answerMonitor st c) ∧ (answerMonitor st c).ret = st.ret ∧
      0 < ((answerMonitor st c).q.smons c).nextRefresh := by
  unfold answerMonitor
  dsimp only
  split
  · have hself : ∀ (q : Querier n k) (mon : ServiceMonitor n), mon.nextRefresh = (st.q.smons c).refreshPeriod →
        0 < ((q.setSmon c mon).smons c).nextRefresh ∧
          min st.next (st.q.smons c).refreshPeriod ≤ ((q.setSmon c mon).smons c).nextRefresh := by
      intro q mon hmon
      rw [setSmon_self, hmon]
      exact ⟨hp, Nat.min_le_right _ _⟩
    refine ⟨⟨Nat.min_le_left _ _, Int.le_refl _, fun _ => .inl rfl, fun _ => .inl rfl, ?_⟩, rfl, (hself _ _ rfl).1⟩
    intro d
    by_cases hd : d = c
    · rw [hd]
      exact .inr (.inl (hself _ _ rfl))
    · exact .inl (congrArg ServiceMonitor.nextRefresh (setSmon_others _ c _ hd))
  · next hne => exact ⟨.refl st, rfl, Nat.pos_of_ne_zero hne⟩

theorem answerMonitors_watches (hcs : cs ⊆ st.q.smonsActive) (hp : st.q.Periodic) :
    st.Watches (cs.foldl answerMonitor st) ∧ (cs.foldl answerMonitor st).ret = st.ret ∧
      ∀ c ∈ cs, 0 < ((cs.foldl answerMonitor st).q.smons c).nextRefresh := by
  induction cs generalizing st with
  | nil => exact ⟨.refl st, rfl, nofun⟩
  | cons c cs ih =>
    obtain ⟨hc, hcs⟩ := cons_subset.mp hcs
    obtain ⟨hfirst, hret, hpos⟩ := answerMonitor_watches (hp c hc)
    obtain ⟨b, hleads⟩ := answerMonitor_leads st c
    have hactive : cs ⊆ (answerMonitor st c).q.smonsActive := by
      rw [hleads.q.monitors]
      exact hcs
    have heffects : Effects (fun _ => True) st.q (answerMonitor st c).q := answerMonitor_effects st c
    obtain ⟨hrest, hret', hall⟩ := ih hactive (periodic_of_effects heffects hp)
    refine ⟨hfirst.trans hrest, hret'.trans hret, ?_⟩
    intro d hd
    rcases mem_cons.mp hd with rfl | hd
    · rcases hrest.smons d with hsame | hseen | hpending
      · exact hpos.trans_eq hsame.symm
      · exact hseen.1
      · exact absurd hpending.2 (by rw [hret']; exact Int.lt_irrefl _)
    · exact hall d hd

end passes

section query
variable {elapsed : Nat} {q : Querier n k} {st : Sched n k}

/-- The timers that are taken into account after a query: all of them, and none of a monitor is
left at 0. -/
structure Sched.Awake (st : Sched n k) : Prop where
  arecs : ∀ a ∈ st.q.arecsActive, st.next ≤ (st.q.arecs a).nextRefresh
  smons : ∀ c ∈ st.q.smonsActive, st.next ≤ (st.q.smons c).nextRefresh
  sinsts : ∀ c ∈ st.q.smonsActive, ∀ s ∈ (st.q.smons c).sinsts, st.next ≤ (st.q.sinsts s).nextRefresh
  scheduled : ∀ c ∈ st.q.smonsActive, (st.q.smons c).nextRefresh ≠ 0

/-- The state after the two passes that ask questions: what has not been asked is seen. -/
structure Sched.Asked (st : Sched n k) : Prop where
  arecs : ∀ a ∈ st.q.arecsActive, st.next ≤ (st.q.arecs a).nextRefresh
  smons : ∀ c ∈ st.q.smonsActive, (0 < (st.q.smons c).nextRefresh ∧ st.next ≤ (st.q.smons c).nextRefresh) ∨
    ((st.q.smons c).nextRefresh = 0 ∧ 0 < st.ret)
  sinsts : ∀ c ∈ st.q.smonsActive, ∀ s ∈ (st.q.smons c).sinsts, st.next ≤ (st.q.sinsts s).nextRefresh

theorem asked_of_passes {st₁ st₂ : Sched n k} (h₁ : runAll (arecSched elapsed) q.arecsActive q.start = some st₁)
    (h₂ : queryMonitors elapsed st₁.q.smonsActive st₁ = some (st₂, true)) : st₂.Asked := by
  have hleads₁ := arecPass_leads h₁
  have hleads₂ := (queryMonitors_leads h₂).1
  obtain ⟨hw₁, harecs⟩ := runAll_watches (fun q a => (q.arecs a).nextRefresh)
    (fun _ _ _ hs => arecSched_watches hs) (fun _ _ a hw => hw.arecs a) h₁ (Nat.le_refl uint32Max)
  obtain ⟨hw₂, hmons, hinsts⟩ := queryMonitors_watches h₂ hw₁.next
  have hret : 0 ≤ st₁.ret := hw₁.ret
  have hactive := hleads₂.q.monitors
  refine ⟨?_, ?_, ?_⟩
  · intro a ha
    have hold : a ∈ q.arecsActive := hleads₁.q.active.subset (hleads₂.q.active.subset ha)
    rcases hw₂.arecs a with hsame | hseen
    · rw [hsame]
      exact hw₂.next.trans (harecs a hold)
    · exact hseen
  · intro c hc
    rw [hactive] at hc
    exact (hmons c hc).imp_right (fun hpending => ⟨hpending.1, by omega⟩)
  · intro c hc
    rw [hactive] at hc
    exact hinsts c hc

/-- A query that is sent, or not needed, tells the time of the first timer. -/
theorem prepareQuery_awake {G : Guard n k} (h : Run G q) (hp : prepareQuery elapsed q = some st)
    (hret : st.ret = 0 ∨ st.ret = 1) : st.Awake := by
  unfold prepareQuery at hp
  simp only [bind_eq_bind, bind_eq_some_iff] at hp
  obtain ⟨st₁, h₁, ⟨st₂, all⟩, h₂, hp⟩ := hp
  cases all with
  | false =>
    cases hp
    rcases hret with hret | hret <;> cases hret
  | true =>
    have hasked := asked_of_passes h₁ h₂
    have heffects : Effects (fun _ => True) q st₂.q :=
      .head (.sends _) ((arecPass_effects h₁).trans (queryMonitors_effects h₂))
    rw [if_pos rfl] at hp
    by_cases hnone : st₂.ret = 0
    · -- no question, so that no monitor waits for the second pass
      rw [if_pos hnone] at hp
      cases hp
      have hseen : ∀ c ∈ st₂.q.smonsActive, 0 < (st₂.q.smons c).nextRefresh ∧ st₂.next ≤ (st₂.q.smons c).nextRefresh :=
        fun c hc => (hasked.smons c hc).resolve_right (fun hpending => by omega)
      exact ⟨hasked.arecs, fun c hc => (hseen c hc).2, hasked.sinsts, fun c hc => (hseen c hc).1.ne'⟩
    · rw [if_neg hnone] at hp
      cases hp
      obtain ⟨hw, -, hpos⟩ :=
        answerMonitors_watches (List.Subset.refl st₂.q.smonsActive) (periodic_of_effects heffects h.periodic)
      obtain ⟨b, hleads⟩ := answerMonitors_leads st₂.q.smonsActive st₂
      have hactive := hleads.q.monitors
      refine ⟨?_, ?_, ?_, ?_⟩
      · intro a ha
        rcases hw.arecs a with hsame | hseen
        · exact (hw.next.trans (hasked.arecs a (hleads.q.active.subset ha))).trans_eq hsame.symm
        · exact hseen
      · intro c hc
        rw [hactive] at hc
        have hne := hpos c hc
        rcases hw.smons c with hsame | hseen | hpending
        · have hbefore := (hasked.smons c hc).resolve_right (fun hpending => by omega)
          exact (hw.next.trans hbefore.2).trans_eq hsame.symm
        · exact hseen.2
        · omega
      · intro c hc s hs
        rw [hactive] at hc
        have hold := hasked.sinsts c hc s ((hleads.q.members c).subset hs)
        rcases hw.sinsts s with hsame | hseen
        · exact (hw.next.trans hold).trans_eq hsame.symm
        · exact hseen
      · intro c hc
        rw [hactive] at hc
        exact (hpos c hc).ne'

set_option maxRecDepth 100000 in
/-- A second after an announcement, the monitor and the new instance are asked for. -/
theorem prepareQuery_awake_announced : ∃ (q : Querier 16 4) (st : Sched 16 4), Run ({} : Guard 16 4) q ∧
    prepareQuery 1000 q = some st ∧ st.ret = 1 ∧ st.next = 2000 ∧ st.Awake := by
  have h : ((runAll (guardedStep {} 60) [.monitor httpType, announce 65 1] (queryLaunch 16 4)).bind (fun q =>
      (prepareQuery 1000 q).map (fun st => (st.ret, st.next)))) = some (1, 2000) := by decide +kernel
  obtain ⟨q, hq, h⟩ := bind_eq_some_iff.mp h
  obtain ⟨st, hst, h⟩ := map_eq_some_iff.mp h
  obtain ⟨hret, hnext⟩ := Prod.mk.inj h
  exact ⟨q, st, run_of_runAll hq, hst, hret, hnext, prepareQuery_awake (run_of_runAll hq) hst (.inr hret)⟩

end query

end Mdns
