import Mdns.Query.Induct
import Mdns.Query.Timers

/-!
# What the callbacks show

A callback passes on the texts of an instance. What every change of an instance keeps is true of
everything that the user is shown in any run.
-/
namespace Mdns
open Lib Option

variable {n k : Nat}

structure Report.Shows (r : Report n) (i : ServiceInstance n k) : Prop where
  fqsn : r.fqsn = i.fqsn
  servname : r.servname = i.servname
  servtype : r.servtype = i.servtype
  proto : r.proto = i.proto
  domain : r.domain = i.domain
  keyvals : r.keyvals = i.keyvals

structure Querier.Vouched (P : ServiceInstance n k → Prop) (q : Querier n k) : Prop where
  slots : ∀ s, P (q.sinsts s)
  reports : ∀ r ∈ q.log, ∃ i, P i ∧ r.Shows i

theorem guardedStep_free (fuel : Nat) (q : Querier n k) (ev : Event) :
    guardedStep ({} : Guard n k) fuel q ev = step fuel q ev := by
  have hall : ∀ {σ α : Type} {ok : σ → α → Bool} {f : σ → α → Option σ}, (∀ s a, ok s a = true) → guarded ok f = f := by
    intro σ α ok f hok
    funext s a
    rw [guarded, if_pos (hok s a)]
  have htxt : ∀ (m : Message) (q : Querier n k) r, ({} : Guard n k).txtMet fuel m q r = true := by
    intro m q r
    unfold Guard.txtMet
    split <;> rfl
  have hsrv : ∀ (m : Message) (q : Querier n k) r, ({} : Guard n k).srvMet fuel m q r = true := by
    intro m q r
    unfold Guard.srvMet
    split <;> rfl
  have ha : ∀ (m : Message) (q : Querier n k) r, ({} : Guard n k).aMet fuel m q r = true := by
    intro m q r
    unfold Guard.aMet
    split <;> rfl
  cases ev with
  | monitor _ => rfl
  | unmonitor _ => rfl
  | prepare _ => rfl
  | response data mlen elapsed =>
    cases hparse : mdnsParseMessage fuel data mlen with
    | ok m =>
      simp only [guardedStep, step, hparse, guardedCache, updateServiceCache, hall (htxt _), hall (hsrv _), hall (ha _)]
    | error e => cases e <;> simp only [guardedStep, step, hparse]

section calls
variable {P : ServiceInstance n k → Prop} {q q₁ q' : Querier n k} {s a : Fin n} {fuel elapsed : Nat} {m m' : Message}
  {r : Resource} {ret changes : Int} {e : SinstEvent n}

theorem Querier.Vouched.same (hq : q.Vouched P) (hsinsts : q'.sinsts = q.sinsts)
    (hlog : q'.log = q.log) : q'.Vouched P :=
  ⟨by rw [hsinsts]; exact hq.slots, by rw [hlog]; exact hq.reports⟩

theorem Querier.Vouched.write (hq : q.Vouched P) {i : ServiceInstance n k} (hi : P i)
    (hsinsts : q'.sinsts = Function.update q.sinsts s i) (hlog : q'.log = q.log) : q'.Vouched P := by
  refine ⟨?_, by rw [hlog]; exact hq.reports⟩
  intro t
  rw [hsinsts]
  by_cases ht : t = s
  · rw [ht, Function.update_self]
    exact hi
  · rw [Function.update_of_ne ht]
    exact hq.slots t

theorem Querier.Vouched.set (s : Fin n) (hq : q.Vouched P) {i : ServiceInstance n k} (hi : P i) :
    (q.setSinst s i).Vouched P :=
  hq.write hi rfl rfl

theorem Querier.Vouched.tell (hq : q.Vouched P) {report : Report n} {i : ServiceInstance n k} (hi : P i)
    (hshows : report.Shows i) : ({ q with log := report :: q.log } : Querier n k).Vouched P :=
  ⟨hq.slots, List.forall_mem_cons.mpr ⟨⟨i, hi, hshows⟩, hq.reports⟩⟩

theorem Querier.Vouched.callback (hq : q.Vouched P) {status : Status}
    (h : callbackOn q s status = some q') : q'.Vouched P := by
  obtain ⟨c, -, rfl⟩ := callbackOn_eq_some.mp h
  exact hq.tell (hq.slots s) ⟨rfl, rfl, rfl, rfl, rfl, rfl⟩

variable (hchange : ∀ i j, SinstChange i j → P i → P j)
include hchange

theorem Querier.Vouched.clean (hq : q.Vouched P) (h : cleanupSinst q s = some q') : q'.Vouched P := by
  have hcl := cleaned_of_cleanupSinst h
  exact hq.write (hchange _ _ (.retired _) (hq.slots s)) hcl.sinsts hcl.log

theorem Querier.Vouched.setState (hq : q.Vouched P) (st : SinstState) : (q.setState s st).Vouched P :=
  hq.write (hchange _ _ (.told _ st) (hq.slots s)) rfl rfl

theorem Querier.Vouched.hosted (hq : q.Vouched P) (h : Hosted q s a q' ret) : q'.Vouched P :=
  hq.write (hchange _ _ (.hosted _ _ a) (hq.slots s)) h.sinsts h.log

theorem Querier.Vouched.ages (hq : q.Vouched P) (h : Ages q s elapsed q' ret) : q'.Vouched P := by
  have haged : P ((q.sinsts s).age elapsed) := hchange _ _ (.ages _ elapsed) (hq.slots s)
  cases h with
  | waits _ => exact hq.write haged rfl rfl
  | asks _ hpercent _ => exact hq.write (hchange _ _ (.asked ((q.sinsts s).age elapsed) hpercent) haged) rfl rfl
  | crowded _ hpercent _ => exact hq.write (hchange _ _ (.asked ((q.sinsts s).age elapsed) hpercent) haged) rfl rfl
  | expires _ _ hclean => exact (hq.set s haged).clean hchange hclean

theorem Querier.Vouched.reacts (hq : q.Vouched P) (h : Reacts q s changes elapsed e q') : q'.Vouched P := by
  cases h with
  | lost _ hclean => exact hq.clean hchange hclean
  | lostShown _ hclean hcb => exact (hq.clean hchange hclean).callback hcb
  | aged hages _ => exact hq.ages hchange (ages_of_applyElapsed hages)
  | @asked q₁ _ hages =>
    have hq₁ := hq.ages hchange (ages_of_applyElapsed hages)
    have hstale := hq₁.set s (hchange _ _ (.stale _) (hq₁.slots s))
    exact hstale.setState hchange .updating
  | expired _ hages => exact hq.ages hchange (ages_of_applyElapsed hages)
  | expiredShown _ hages hcb => exact (hq.ages hchange (ages_of_applyElapsed hages)).callback hcb
  | quiet _ => exact hq
  | pending _ _ _ => exact hq.setState hchange .updating
  | gone _ _ hcb => exact hq.callback hcb
  | discovered _ _ _ hcb => exact (hq.callback hcb).setState hchange .clean
  | updated _ _ _ _ hcb => exact (hq.callback hcb).setState hchange .clean

theorem Querier.Vouched.hostsSrv (hq : q.Vouched P) (h : HostsSrv fuel q s m r q' ret) : q'.Vouched P := by
  cases h with
  | found _ hh => exact hq.hosted hchange hh
  | full _ _ => exact hq.write (hchange _ _ (.homeless _) (hq.slots s)) rfl rfl
  | fresh _ _ _ hh =>
    refine Querier.Vouched.hosted hchange ?_ hh
    exact hq.same rfl rfl

theorem Querier.Vouched.sinstChanges (hq : q.Vouched P) (h : Mdns.sinstChanges fuel q s e elapsed = some (q', ret)) :
    q'.Vouched P := by
  cases e with
  | lostArec =>
    cases h
    exact hq
  | addQuestions =>
    cases h
    exact hq
  | got u =>
    cases u with
    | arec a => exact hq.hosted hchange (hosted_of_setArec h)
    | txt m r =>
      obtain ⟨i, ret', hi, h⟩ := bind_pair_eq_some.mp h
      cases h
      exact hq.write (hchange _ _ (.texted hi) (hq.slots s)) rfl rfl
    | srv m r =>
      rcases updateSrv_eq_some h with ⟨-, hclean, -⟩ | ⟨-, q₁, moved, hhosts, rfl, -⟩
      · exact hq.clean hchange hclean
      · have hported := hq.set s (hchange _ _ (.ported _ (srvPort m.data r)) (hq.slots s))
        have hq₁ := hported.hostsSrv hchange hhosts
        exact hq₁.write (hchange _ _ (.served _ r elapsed) (hq₁.slots s)) rfl rfl

theorem Querier.Vouched.update (hq : q.Vouched P)
    (h : updateSinst fuel q s e elapsed = some (q', ret)) : q'.Vouched P := by
  obtain ⟨q₁, changes, hc, hr⟩ := updateSinst_eq_some h
  exact (hq.sinstChanges hchange hc).reacts hchange hr

theorem Querier.Vouched.alertAll {slots : List (Fin n)} (hq : q.Vouched P)
    (h : runAll (alertSinst e) slots q = some q') :
    q'.Vouched P := by
  refine runAll_keeps (I := Querier.Vouched P) ?_ h hq
  intro q s q' hs hq
  obtain ⟨⟨q₁, ret⟩, hu, rfl⟩ := map_eq_some_iff.mp hs
  exact hq.update hchange hu

theorem Querier.Vouched.evict (hq : q.Vouched P) (h : evictArec q a = some q') : q'.Vouched P := by
  obtain ⟨q₁, h₁, -, rfl⟩ := evictArec_eq_some h
  exact (hq.alertAll hchange h₁).same rfl rfl

theorem Querier.Vouched.arec (hq : q.Vouched P) (h : updateArecRx q a m r = some q') : q'.Vouched P := by
  rcases updateArecRx_eq_some h with ⟨-, h⟩ | ⟨-, q₁, h₁, rfl⟩
  · exact hq.evict hchange h
  · rw [alertIp_eq] at h₁
    split at h₁
    · cases h₁
      exact hq.same rfl rfl
    · have hq₁ : q₁.Vouched P := by
        refine Querier.Vouched.alertAll hchange ?_ h₁
        exact hq.same rfl rfl
      exact hq₁.same rfl rfl

theorem Querier.Vouched.turn (hq : q.Vouched P) (h : ArecTurn q a elapsed q' ret) : q'.Vouched P := by
  cases h with
  | launches _ => exact hq.same rfl rfl
  | waits _ _ => exact hq.same rfl rfl
  | retries _ _ _ => exact hq.same rfl rfl
  | refreshes _ _ => exact hq.same rfl rfl
  | evicts _ _ _ h =>
    refine Querier.Vouched.evict hchange ?_ h
    exact hq.same rfl rfl

theorem Querier.Vouched.overflow {c : Fin k} {ptr : Resource} (hnew : P {}) (hq : q.Vouched P)
    (h : overflow fuel q m c ptr = some (q', m')) : q'.Vouched P := by
  rcases overflow_cases h with ⟨rfl, -⟩ | ⟨i, j, _, _, _, _, hinfo, htxts, -, hcb, -⟩
  · exact hq
  · have hi : P i := hchange _ _ (.named {} hinfo) hnew
    have hj : P j := (takeTxts_keeps (fun htxt => hchange _ _ (.texted htxt)) htxts hi).1
    simp only [doCallback, bind_eq_bind, bind_eq_some_iff, Option.pure_def, some.injEq] at hcb
    obtain ⟨d, -, rfl⟩ := hcb
    exact hq.tell hj ⟨rfl, rfl, rfl, rfl, rfl, rfl⟩

theorem Querier.Vouched.ptr {ptr : Resource} (hnew : P {}) (hq : q.Vouched P)
    (h : TakesPtr fuel elapsed q m ptr q' m') :
    q'.Vouched P := by
  cases h with
  | ignored _ => exact hq
  | @goodbye c s q₁ _ _ _ _ hbye hclean =>
    refine Querier.Vouched.clean hchange ?_ hclean
    unfold sayGoodbye at hbye
    split at hbye
    · cases hbye
      exact hq
    · exact hq.callback hbye
  | renewed _ _ _ => exact hq.write (hchange _ _ (.heard _ _) (hq.slots _)) rfl rfl
  | failed _ _ _ _ => exact hq.write (hchange _ _ (.blank {} _) hnew) rfl rfl
  | adopted _ _ _ hinfo => exact hq.write (hchange _ _ (.heard _ _) (hchange _ _ (.named {} hinfo) hnew)) rfl rfl
  | unheard _ _ _ _ => exact hq
  | overflowed _ _ _ _ hover => exact hq.overflow hchange hnew hover

theorem keptByCalls_vouched (hnew : P {}) (G : Guard n k) : KeptByCalls G (Querier.Vouched P) where
  same h hq := hq.same h.sinsts h.log
  clean h hq := hq.clean hchange h
  ptr _ h hq := hq.ptr hchange hnew h
  txt _ _ h hq := hq.update hchange h
  srv _ _ h hq := hq.update hchange h
  a _ _ _ h hq := hq.arec hchange h
  turn _ h hq := hq.turn hchange h
  ask _ h hq := hq.update hchange h

/-- What every change of an instance keeps holds of everything that is cached or has been shown, in every run. -/
theorem Run.vouched {G : Guard n k} (h : Run G q) (hnew : P {}) : q.Vouched P :=
  Run.keeps_calls (keptByCalls_vouched hchange hnew G) ⟨fun _ => hnew, nofun⟩ h

theorem Querier.Vouched.step {ev : Event} (hnew : P {}) (ht : q.Tidy) (hq : q.Vouched P)
    (h : step fuel q ev = some q') :
    q'.Vouched P := by
  have hstep : guardedStep ({} : Guard n k) fuel q ev = some q' := (guardedStep_free fuel q ev).trans h
  exact (keptByCalls_vouched hchange hnew {}).step ht hstep hq

end calls

section texts
variable {q q' : Querier n k}

/-- The label texts of an instance leave room for a terminating zero in their arrays, which have 64 bytes each. -/
structure ServiceInstance.LabelsFit (i : ServiceInstance n k) : Prop where
  servname : i.servname.length < maxLabelLen
  servtype : i.servtype.length < maxLabelLen
  domain : i.domain.length < maxLabelLen

theorem labelsFit_blank (smon : Option (Fin k)) : ({ smon } : ServiceInstance n k).LabelsFit :=
  have hblank : ([] : List UInt8).length < maxLabelLen := by decide
  ⟨hblank, hblank, hblank⟩

theorem SinstChange.labelsFit {i j : ServiceInstance n k} (h : SinstChange i j) (hi : i.LabelsFit) : j.LabelsFit := by
  cases h with
  | blank c => exact labelsFit_blank (some c)
  | named hinfo =>
    obtain ⟨hreads, -⟩ := copyServinfo_reads hinfo
    obtain ⟨_, _, _, _, _, _, hname, htype, -, -, -, -, -, hdomain⟩ := hreads.parts
    exact ⟨length_dnameLabelToC hname, length_dnameLabelToC htype, length_dnameLabelToC hdomain⟩
  | texted htxt =>
    rcases updateTxt_eq_some htxt with ⟨rfl, -⟩ | ⟨keyvals, raw, len, rfl, -⟩
    · exact hi
    · exact ⟨hi.servname, hi.servtype, hi.domain⟩
  | hosted r a =>
    unfold takeAddress
    split <;> exact ⟨hi.servname, hi.servtype, hi.domain⟩
  | _ => exact ⟨hi.servname, hi.servtype, hi.domain⟩

/-- In every run, the label texts of every callback fit into their arrays. -/
theorem Run.shown_fits {G : Guard n k} (h : Run G q) : ∀ r ∈ q.log,
    r.servname.length < maxLabelLen ∧ r.servtype.length < maxLabelLen ∧ r.domain.length < maxLabelLen := by
  intro r hr
  obtain ⟨i, hi, hshows⟩ := (h.vouched (fun _ _ hc => hc.labelsFit) (labelsFit_blank none)).reports r hr
  rw [hshows.servname, hshows.servtype, hshows.domain]
  exact ⟨hi.servname, hi.servtype, hi.domain⟩

theorem shown_fits_announced : ∃ q : Querier 16 4, Run fitting q ∧ q.log.map Report.servname = [[97]] ∧ ∀ r ∈ q.log,
    r.servname.length < maxLabelLen ∧ r.servtype.length < maxLabelLen ∧ r.domain.length < maxLabelLen := by
  have h : ((runAll (guardedStep fitting 60) [.monitor httpType, announce 65 1] (queryLaunch 16 4)).map
      (fun q => q.log.map Report.servname)) = some [[97]] := by decide +kernel
  obtain ⟨q, hq, hlog⟩ := map_eq_some_iff.mp h
  have hrun := run_of_runAll hq
  exact ⟨q, hrun, hlog, hrun.shown_fits⟩

end texts

end Mdns
