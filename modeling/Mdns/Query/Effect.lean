import Mdns.Query.React
import Mdns.Query.Registry
import Mdns.Dname.Expand

/-!
# The functions as moves of the registry

The registry of a querier, and what each function on an instance does to it. Everything else
that a function changes is listed beside its move.
-/
namespace Mdns
open Lib Option
open Function (update)

variable {n k : Nat}
  {q q' : Querier n k} {s a : Fin n} {i : ServiceInstance n k} {r : Resource} {ret : Int}
  {fuel elapsed : Nat}

def Querier.reg (q : Querier n k) : Registry (Fin n) (Fin n) (Fin k) Mem where
  free := q.sinstsFree
  owner s := (q.sinsts s).smon
  host s := (q.sinsts s).arec
  members c := (q.smons c).sinsts
  referrers a := (q.arecs a).sinsts
  active := q.arecsActive
  spare := q.arecsFree
  freeM := q.smonsFree
  shown s := (q.sinsts s).state.shown
  name s := (q.sinsts s).fqsn
  hostName a := (q.arecs a).fqdn
  kind c := (q.smons c).fqst
  session c := (q.smons c).session
  sessions := q.sessions
  log := q.log.map (fun r => ⟨r.session, r.fqsn, r.status, r.ready⟩)

section value
variable {α β γ : Type} [DecidableEq α]

theorem field_update (g : β → γ) (f : α → β) (a : α) (b : β) :
    (fun x => g (update f a b x)) = update (fun x => g (f x)) a (g b) := by
  funext x
  by_cases h : x = a
  · subst h
    simp
  · simp [h]

theorem field_update_same {g : β → γ} {f : α → β} {a : α} {b : β} (h : g b = g (f a)) :
    (fun x => g (update f a b x)) = fun x => g (f x) := by
  rw [field_update, h, Function.update_eq_self_iff]

end value

structure SameEntry (i j : ServiceInstance n k) : Prop where
  smon : i.smon = j.smon
  arec : i.arec = j.arec
  state : i.state = j.state
  fqsn : i.fqsn = j.fqsn

theorem reg_setSinst (h : SameEntry i (q.sinsts s)) :
    (q.setSinst s i).reg = q.reg := by
  have h1 := field_update_same (g := ServiceInstance.smon) (f := q.sinsts) h.smon
  have h2 := field_update_same (g := ServiceInstance.arec) (f := q.sinsts) h.arec
  have h3 := field_update_same (g := fun i : ServiceInstance n k => i.state.shown) (f := q.sinsts)
    (a := s) (b := i) (by simp only [h.state])
  have h4 := field_update_same (g := ServiceInstance.fqsn) (f := q.sinsts) h.fqsn
  simp only [Querier.reg, Querier.setSinst, h1, h2, h3, h4]

theorem reg_setArec {r : ARec n} (h : r.sinsts = (q.arecs a).sinsts)
    (hf : r.fqdn = (q.arecs a).fqdn) : (q.setArec a r).reg = q.reg := by
  have h1 := field_update_same (g := ARec.sinsts) (f := q.arecs) h
  have h2 := field_update_same (g := ARec.fqdn) (f := q.arecs) hf
  simp only [Querier.reg, Querier.setArec, h1, h2]

theorem reg_setSmon {c : Fin k} {m : ServiceMonitor n} (h : m.sinsts = (q.smons c).sinsts)
    (hs : m.session = (q.smons c).session) (hf : m.fqst = (q.smons c).fqst) : (q.setSmon c m).reg = q.reg := by
  have h1 := field_update_same (g := ServiceMonitor.sinsts) (f := q.smons) h
  have h2 := field_update_same (g := ServiceMonitor.session) (f := q.smons) hs
  have h3 := field_update_same (g := ServiceMonitor.fqst) (f := q.smons) hf
  simp only [Querier.reg, Querier.setSmon, h1, h2, h3]

theorem reg_setArec_sinsts (q : Querier n k) (a : Fin n) (l : List (Fin n)) :
    (q.setArec a { q.arecs a with sinsts := l }).reg =
      { q.reg with referrers := update q.reg.referrers a l } := by
  have h := field_update (ARec.sinsts) q.arecs a { q.arecs a with sinsts := l }
  have h' := field_update_same (g := ARec.fqdn) (f := q.arecs) (a := a) (b := { q.arecs a with sinsts := l }) rfl
  simp only [Querier.reg, Querier.setArec, h, h']

theorem reg_setSmon_sinsts (q : Querier n k) (c : Fin k) (l : List (Fin n)) :
    (q.setSmon c { q.smons c with sinsts := l }).reg =
      { q.reg with members := update q.reg.members c l } := by
  have h := field_update (ServiceMonitor.sinsts) q.smons c { q.smons c with sinsts := l }
  have h' := field_update_same (g := ServiceMonitor.session) (f := q.smons) (a := c)
    (b := { q.smons c with sinsts := l }) rfl
  have h'' := field_update_same (g := ServiceMonitor.fqst) (f := q.smons) (a := c)
    (b := { q.smons c with sinsts := l }) rfl
  simp only [Querier.reg, Querier.setSmon, h, h', h'']

theorem reg_arecLists (q : Querier n k) (active free : List (Fin n)) :
    { q with arecsActive := active, arecsFree := free }.reg = { q.reg with active, spare := free } := rfl

theorem setArec_sinsts_apply (q : Querier n k) (a b : Fin n) (l : List (Fin n)) :
    (q.setArec a { q.arecs a with sinsts := l }).arecs b =
      { q.arecs b with sinsts := ((q.setArec a { q.arecs a with sinsts := l }).arecs b).sinsts } := by
  by_cases hb : b = a
  · subst hb
    simp [Querier.setArec]
  · simp [Querier.setArec, hb]

theorem setSmon_sinsts_apply (q : Querier n k) (c d : Fin k) (l : List (Fin n)) :
    (q.setSmon c { q.smons c with sinsts := l }).smons d =
      { q.smons d with sinsts := ((q.setSmon c { q.smons c with sinsts := l }).smons d).sinsts } := by
  by_cases hd : d = c
  · subst hd
    simp [Querier.setSmon]
  · simp [Querier.setSmon, hd]

/-- `cleanup_sinst` releases the slot and changes nothing but lists and the time of its next
refresh. -/
structure Cleaned (q : Querier n k) (s : Fin n) (q' : Querier n k) : Prop where
  reg : q'.reg = q.reg.release s
  sinsts : q'.sinsts = update q.sinsts s { q.sinsts s with nextRefresh := uint32Max }
  arecs : ∀ a, q'.arecs a = { q.arecs a with sinsts := (q'.arecs a).sinsts }
  smons : ∀ c, q'.smons c = { q.smons c with sinsts := (q'.smons c).sinsts }
  smonsActive : q'.smonsActive = q.smonsActive
  tx : q'.tx = q.tx
  log : q'.log = q.log

theorem leaveArec_eq_some (h : leaveArec q s a = some q') :
    s ∈ (q.arecs a).sinsts ∧
    q' = { q.setArec a { q.arecs a with sinsts := (q.arecs a).sinsts.erase s } with
      arecsActive := if (q.arecs a).sinsts.erase s = [] then q.arecsActive.erase a else q.arecsActive,
      arecsFree := if (q.arecs a).sinsts.erase s = [] then a :: q.arecsFree else q.arecsFree } := by
  rw [leaveArec_eq] at h
  simp only [bind_eq_bind, bind_eq_some_iff] at h
  obtain ⟨refs, hrefs, h⟩ := h
  obtain ⟨hmem, rfl⟩ := slistRemove_eq_some.mp hrefs
  refine ⟨hmem, ?_⟩
  by_cases hnil : (q.arecs a).sinsts.erase s = []
  · simp only [if_pos hnil, bind_eq_some_iff, Option.pure_def, some.injEq] at h ⊢
    obtain ⟨active, hact, rfl⟩ := h
    obtain ⟨-, rfl⟩ := slistRemove_eq_some.mp hact
    rfl
  · simp only [if_neg hnil, Option.pure_def, some.injEq] at h ⊢
    rw [← h]
    rfl

theorem leaveHost_reg (h : leaveHost q s = some q') : q'.reg = q.reg.leave s := by
  unfold leaveHost at h
  cases ha : (q.sinsts s).arec with
  | none =>
    have hh : q.reg.host s = none := ha
    rw [ha] at h
    cases h
    simp only [Registry.leave, unlink, hh, elim_none]
  | some a =>
    have hh : q.reg.host s = some a := ha
    rw [ha] at h
    obtain ⟨-, rfl⟩ := leaveArec_eq_some h
    rw [reg_arecLists, reg_setArec_sinsts]
    simp only [Registry.leave, unlink, hh, elim_some]
    rfl

theorem leaveHost_frame (h : leaveHost q s = some q') :
    q'.sinsts = q.sinsts ∧ q'.smons = q.smons ∧ q'.smonsActive = q.smonsActive ∧ q'.tx = q.tx ∧ q'.log = q.log ∧
    ∀ a, q'.arecs a = { q.arecs a with sinsts := (q'.arecs a).sinsts } := by
  unfold leaveHost at h
  cases ha : (q.sinsts s).arec with
  | none =>
    rw [ha] at h
    cases h
    exact ⟨rfl, rfl, rfl, rfl, rfl, fun _ => rfl⟩
  | some a =>
    rw [ha] at h
    obtain ⟨-, rfl⟩ := leaveArec_eq_some h
    exact ⟨rfl, rfl, rfl, rfl, rfl, fun b => setArec_sinsts_apply q a b ((q.arecs a).sinsts.erase s)⟩

theorem cleaned_of_cleanupSinst (h : cleanupSinst q s = some q') : Cleaned q s q' := by
  unfold cleanupSinst at h
  simp only [bind_eq_bind, bind_eq_some_iff, Option.pure_def, some.injEq] at h
  obtain ⟨c, hc, members, hm, q₁, hq₁, rfl⟩ := h
  obtain ⟨-, rfl⟩ := slistRemove_eq_some.mp hm
  have ho : q.reg.owner s = some c := hc
  have hlast : ({ q₁ with sinstsFree := s :: q₁.sinstsFree }.setSinst s
      { q₁.sinsts s with nextRefresh := uint32Max }).reg = { q₁.reg with free := s :: q₁.reg.free } :=
    reg_setSinst ⟨rfl, rfl, rfl, rfl⟩
  obtain ⟨hsinsts, hsmons, hactive, htx, hlog, harecs⟩ := leaveHost_frame hq₁
  refine ⟨?_, ?_, harecs, fun d => ?_, hactive, htx, hlog⟩
  · rw [hlast, leaveHost_reg hq₁, reg_setSmon_sinsts]
    simp only [Registry.release, unlink, ho, elim_some]
    rfl
  · show update q₁.sinsts s _ = _
    rw [hsinsts]
    rfl
  · show q₁.smons d = { q.smons d with sinsts := (q₁.smons d).sinsts }
    rw [hsmons]
    exact setSmon_sinsts_apply q c d ((q.smons c).sinsts.erase s)

/-- The number that `set_arec` returns for a move to another record. -/
def movedFrom (i : ServiceInstance n k) (a : Fin n) : Int :=
  i.arec.elim 0 (fun old => if old ≠ a then 1 else 0)

/-- `set_arec` attaches the slot to the record and takes over its address. -/
structure Hosted (q : Querier n k) (s a : Fin n) (q' : Querier n k) (ret : Int) : Prop where
  reg : q'.reg = q.reg.attach s a
  sinsts : q'.sinsts = update q.sinsts s { takeAddress (q.sinsts s) (q.arecs a) with arec := some a }
  ret : ret = if (takeAddress (q.sinsts s) (q.arecs a)).ipaddr ≠ (q.sinsts s).ipaddr then 1 else
    movedFrom (q.sinsts s) a
  arecs : ∀ b, q'.arecs b = { q.arecs b with sinsts := (q'.arecs b).sinsts }
  smons : q'.smons = q.smons
  smonsActive : q'.smonsActive = q.smonsActive
  tx : q'.tx = q.tx
  log : q'.log = q.log

theorem takeOff_eq_some {moved : Int} (h : takeOff q s a = some (q', moved)) :
    q'.reg = { q.reg with referrers := unlink q.reg.host q.reg.referrers s } ∧ moved = movedFrom (q.sinsts s) a ∧
    q'.sinsts = q.sinsts ∧ q'.smons = q.smons ∧ q'.smonsActive = q.smonsActive ∧ q'.tx = q.tx ∧ q'.log = q.log ∧
    ∀ b, q'.arecs b = { q.arecs b with sinsts := (q'.arecs b).sinsts } := by
  rw [takeOff_eq] at h
  unfold movedFrom
  cases ha : (q.sinsts s).arec with
  | none =>
    have hh : q.reg.host s = none := ha
    rw [ha] at h
    cases h
    exact ⟨by simp only [unlink, hh, elim_none], rfl, rfl, rfl, rfl, rfl, rfl, fun _ => rfl⟩
  | some old =>
    have hh : q.reg.host s = some old := ha
    rw [ha] at h
    simp only [bind_eq_bind, bind_eq_some_iff, Option.pure_def, some.injEq, Prod.mk.injEq] at h
    obtain ⟨refs, hrefs, rfl, rfl⟩ := h
    obtain ⟨-, rfl⟩ := slistRemove_eq_some.mp hrefs
    refine ⟨?_, rfl, rfl, rfl, rfl, rfl, rfl, fun b => setArec_sinsts_apply q old b ((q.arecs old).sinsts.erase s)⟩
    rw [reg_setArec_sinsts]
    simp only [unlink, hh, elim_some]
    rfl

theorem takeAddress_sinsts (i : ServiceInstance n k) (r : ARec n) (l : List (Fin n)) :
    takeAddress i { r with sinsts := l } = takeAddress i r := rfl

theorem sameEntry_takeAddress (i : ServiceInstance n k) (r : ARec n) :
    (takeAddress i r).smon = i.smon ∧ (takeAddress i r).state = i.state ∧ (takeAddress i r).fqsn = i.fqsn := by
  unfold takeAddress
  split <;> exact ⟨rfl, rfl, rfl⟩

theorem reg_setSinst_arec (hm : i.smon = (q.sinsts s).smon)
    (hst : i.state = (q.sinsts s).state) (hf : i.fqsn = (q.sinsts s).fqsn) (ha : i.arec = some a) :
    (q.setSinst s i).reg = { q.reg with host := update q.reg.host s (some a) } := by
  have h1 := field_update_same (g := ServiceInstance.smon) (f := q.sinsts) hm
  have h2 := field_update (ServiceInstance.arec) q.sinsts s i
  have h3 := field_update_same (g := fun i : ServiceInstance n k => i.state.shown) (f := q.sinsts)
    (a := s) (b := i) (by simp only [hst])
  have h4 := field_update_same (g := ServiceInstance.fqsn) (f := q.sinsts) hf
  simp only [Querier.reg, Querier.setSinst, h1, h2, h3, h4, ha]

theorem hosted_of_setArec (h : setArec q s a = some (q', ret)) :
    Hosted q s a q' ret := by
  unfold setArec at h
  obtain ⟨q₁, moved, h₁, h⟩ := bind_pair_eq_some.mp h
  simp only [Option.pure_def, some.injEq, Prod.mk.injEq] at h
  obtain ⟨rfl, rfl⟩ := h
  obtain ⟨hreg, hmoved, hsinsts, hsmons, hactive, htx, hlog, harecs⟩ := takeOff_eq_some h₁
  have haddr : takeAddress (q₁.sinsts s) (q₁.arecs a) = takeAddress (q.sinsts s) (q.arecs a) := by
    rw [hsinsts, harecs a, takeAddress_sinsts]
  obtain ⟨hm, hst, hf⟩ := sameEntry_takeAddress (q₁.sinsts s) (q₁.arecs a)
  refine ⟨?_, ?_, ?_, fun b => ?_, hsmons, hactive, htx, hlog⟩
  · refine (reg_setSinst_arec (q := q₁.setArec a { q₁.arecs a with sinsts := s :: (q₁.arecs a).sinsts })
      (i := { takeAddress (q₁.sinsts s) (q₁.arecs a) with arec := some a }) (a := a) hm hst hf rfl).trans ?_
    have hrefs : (q₁.arecs a).sinsts = unlink q.reg.host q.reg.referrers s a :=
      congrArg (fun r : Registry (Fin n) (Fin n) (Fin k) Mem => r.referrers a) hreg
    rw [reg_setArec_sinsts, hreg, hrefs]
    rfl
  · show update q₁.sinsts s _ = _
    rw [haddr, hsinsts]
  · rw [haddr, hsinsts, hmoved]
  · refine (setArec_sinsts_apply q₁ a b (s :: (q₁.arecs a).sinsts)).trans ?_
    rw [harecs b]
    rfl

inductive HostsSrv (fuel : Nat) (q : Querier n k) (s : Fin n) (m : Message) (r : Resource) :
    Querier n k → Int → Prop where
  | found {a : Fin n} {q' : Querier n k} {ret : Int} : findArec fuel q m (srvTarget r) = some (some a) →
      Hosted q s a q' ret → HostsSrv fuel q s m r q' ret
  | full : findArec fuel q m (srvTarget r) = some none → q.arecsFree = [] →
      HostsSrv fuel q s m r (q.setSinst s { q.sinsts s with arec := none }) 0
  | fresh {a : Fin n} {free : List (Fin n)} {fqdn : Mem} {copied ret : Int} {q' : Querier n k} :
      findArec fuel q m (srvTarget r) = some none → q.arecsFree = a :: free →
      dnameCopy fuel m.data (srvTarget r) = some (fqdn, copied) →
      Hosted ({ q with arecsFree := free, arecsActive := a :: q.arecsActive }.setArec a
        { sinsts := [], fqdn }) s a q' ret →
      HostsSrv fuel q s m r q' ret

theorem hostsSrv_of_hostSrv {m : Message}
    (h : hostSrv fuel q s m r = some (q', ret)) : HostsSrv fuel q s m r q' ret := by
  unfold hostSrv at h
  simp only [bind_eq_bind, bind_eq_some_iff] at h
  obtain ⟨found, hfind, h⟩ := h
  cases found with
  | some a => exact .found hfind (hosted_of_setArec h)
  | none =>
    cases hfree : q.arecsFree with
    | nil =>
      simp only [hfree, Option.pure_def, some.injEq, Prod.mk.injEq] at h
      obtain ⟨rfl, rfl⟩ := h
      exact .full hfind hfree
    | cons a free =>
      simp only [hfree] at h
      obtain ⟨⟨fqdn, copied⟩, hcopy, h⟩ := bind_eq_some_iff.mp h
      exact .fresh hfind hfree hcopy (hosted_of_setArec h)

/-- What `update_srv` does with a record that is no goodbye. -/
structure TakesSrv (fuel : Nat) (q : Querier n k) (s : Fin n) (m : Message) (r : Resource) (elapsed : Nat)
    (q' : Querier n k) (ret : Int) : Prop where
  ttl : r.ttl ≠ 0
  hosts : ∃ q₁ moved, HostsSrv fuel (q.setSinst s { q.sinsts s with port := srvPort m.data r }) s m r q₁ moved ∧
    q' = q₁.setSinst s (srvTimes (q₁.sinsts s) r elapsed) ∧
    ret = if (if (q.sinsts s).port ≠ srvPort m.data r then 1 else 0) + moved > 0 then 1 else 0

theorem updateSrv_eq_some {m : Message} (h : updateSrv fuel q s m r elapsed = some (q', ret)) :
    (r.ttl = 0 ∧ cleanupSinst q s = some q' ∧ ret = -1) ∨ TakesSrv fuel q s m r elapsed q' ret := by
  unfold updateSrv at h
  by_cases httl : r.ttl = 0
  · simp only [if_pos httl, bind_eq_bind, bind_eq_some_iff, Option.pure_def, some.injEq,
      Prod.mk.injEq] at h
    obtain ⟨q₁, hq, rfl, rfl⟩ := h
    exact .inl ⟨httl, hq, rfl⟩
  · rw [if_neg httl] at h
    obtain ⟨q₁, moved, hhost, h⟩ := bind_pair_eq_some.mp h
    simp only [Option.pure_def, some.injEq, Prod.mk.injEq] at h
    obtain ⟨rfl, rfl⟩ := h
    exact .inr ⟨httl, q₁, moved, hostsSrv_of_hostSrv hhost, rfl, rfl⟩

/-- What `apply_elapsed` can do. -/
inductive Ages (q : Querier n k) (s : Fin n) (elapsed : Nat) : Querier n k → Int → Prop where
  | waits : ((q.sinsts s).age elapsed).nextRefresh ≠ 0 → Ages q s elapsed (q.setSinst s ((q.sinsts s).age elapsed)) 0
  | asks {tx : Message} : ((q.sinsts s).age elapsed).nextRefresh = 0 → 5 ≤ (q.sinsts s).ttlPercent →
      mdnsAddQuestion q.tx (q.sinsts s).fqsn tAny cIn = some tx →
      Ages q s elapsed ({ q with tx }.setSinst s ((q.sinsts s).age elapsed).reschedule) 1
  | crowded : ((q.sinsts s).age elapsed).nextRefresh = 0 → 5 ≤ (q.sinsts s).ttlPercent →
      mdnsAddQuestion q.tx (q.sinsts s).fqsn tAny cIn = none →
      Ages q s elapsed (q.setSinst s ((q.sinsts s).age elapsed).reschedule) 0
  | expires {q' : Querier n k} : ((q.sinsts s).age elapsed).nextRefresh = 0 → (q.sinsts s).ttlPercent < 5 →
      cleanupSinst (q.setSinst s ((q.sinsts s).age elapsed)) s = some q' → Ages q s elapsed q' (-1)

theorem ages_of_applyElapsed (h : applyElapsed q s elapsed = some (q', ret)) : Ages q s elapsed q' ret := by
  unfold applyElapsed at h
  by_cases h0 : ((q.sinsts s).age elapsed).nextRefresh = 0
  · rw [if_pos h0] at h
    by_cases h5 : (q.sinsts s).ttlPercent < 5
    · rw [if_pos (show ((q.sinsts s).age elapsed).ttlPercent < 5 from h5)] at h
      simp only [bind_eq_bind, bind_eq_some_iff, Option.pure_def, some.injEq, Prod.mk.injEq] at h
      obtain ⟨q₁, hq, rfl, rfl⟩ := h
      exact .expires h0 h5 hq
    · rw [if_neg (show ¬ ((q.sinsts s).age elapsed).ttlPercent < 5 from h5)] at h
      have hname : ((q.sinsts s).age elapsed).fqsn = (q.sinsts s).fqsn := rfl
      rw [hname] at h
      cases hask : mdnsAddQuestion q.tx (q.sinsts s).fqsn tAny cIn with
      | none =>
        simp only [hask, Option.pure_def, some.injEq, Prod.mk.injEq] at h
        obtain ⟨rfl, rfl⟩ := h
        exact .crowded h0 (Nat.not_lt.mp h5) hask
      | some tx =>
        simp only [hask, Option.pure_def, some.injEq, Prod.mk.injEq] at h
        obtain ⟨rfl, rfl⟩ := h
        exact .asks h0 (Nat.not_lt.mp h5) hask
  · simp only [if_neg h0, Option.pure_def, some.injEq, Prod.mk.injEq] at h
    obtain ⟨rfl, rfl⟩ := h
    exact .waits h0

theorem updateTxt_eq_some {j : ServiceInstance n k} {p : Mem} (h : updateTxt fuel i p r = some (j, ret)) :
    (j = i ∧ ret = 0) ∨ (∃ keyvals raw len, j = { i with keyvals := some keyvals, rawkeyvals := raw, rawkvlen := len } ∧
      ret = 1) := by
  unfold updateTxt at h
  dsimp only at h
  split at h
  · simp only [bind_eq_bind, bind_eq_some_iff, Option.pure_def, some.injEq, Prod.mk.injEq] at h
    obtain ⟨text, -, rfl, rfl⟩ := h
    exact .inr ⟨text, _, _, rfl, rfl⟩
  · cases h
    exact .inl ⟨rfl, rfl⟩

end Mdns
