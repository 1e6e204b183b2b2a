import Mdns.Query.Lookup
import Mdns.Query.Invariant

/-!
# What the user hears of an A record

The calls that pass an address on to the instances of a host. An instance which only waits for its
address is discovered with it.
-/
namespace Mdns
open Lib List Option

variable {n k : Nat}

/-- During a call the user is told that the instance of this name is discovered. -/
def Heard (q q' : Querier n k) (N : Labels) : Prop :=
  ∃ new, q'.log = new ++ q.log ∧ ∃ r ∈ new, r.status = .discovered ∧ plainLabels r.fqsn = N

structure Advert where
  servname : List UInt8
  servtype : List UInt8
  proto : Proto
  domain : List UInt8
  ipaddr : Nat
  keyvals : Option (List UInt8)
  deriving DecidableEq

def Report.advert (r : Report n) : Advert := ⟨r.servname, r.servtype, r.proto, r.domain, r.ipaddr, r.keyvals⟩

def ServiceInstance.advert (i : ServiceInstance n k) : Advert :=
  ⟨i.servname, i.servtype, i.proto, i.domain, i.ipaddr, i.keyvals⟩

section heard
variable {q q₁ q' : Querier n k} {N : Labels}

theorem Heard.after (h : Heard q q₁ N) (hlog : ∃ new, q'.log = new ++ q₁.log) : Heard q q' N := by
  obtain ⟨old, hold, r, hr, hd⟩ := h
  obtain ⟨new, hnew⟩ := hlog
  refine ⟨new ++ old, by rw [hnew, hold, append_assoc], r, mem_append_right new hr, hd⟩

theorem Heard.before (h : Heard q₁ q' N) (hlog : ∃ old, q₁.log = old ++ q.log) : Heard q q' N := by
  obtain ⟨new, hnew, r, hr, hd⟩ := h
  obtain ⟨old, hold⟩ := hlog
  refine ⟨new ++ old, by rw [hnew, hold, append_assoc], r, mem_append_left old hr, hd⟩

theorem not_heard_of_names {new : List (Report n)} (hlog : q'.log = new ++ q.log)
    (hnames : ∀ r ∈ new, plainLabels r.fqsn ≠ N) : ¬ Heard q q' N := by
  rintro ⟨new', hnew', r, hr, -, hname⟩
  rw [hlog] at hnew'
  rw [← append_cancel_right hnew'] at hr
  exact hnames r hr hname

theorem not_heard_of_log (hlog : q'.log = q.log) : ¬ Heard q q' N := @not_heard_of_names _ _ q q' N [] hlog nofun

end heard

section react
variable {q q₁ q' : Querier n k} {s a : Fin n} {c : Fin k} {u : News n} {changes : Int} {elapsed : Nat}

theorem sinstReact_returns (changes : Int) (elapsed : Nat) (ho : (q.sinsts s).smon = some c) :
    ∃ q' ret, sinstReact q s (.got u) changes elapsed = some (q', ret) := by
  have hcb : ∀ status, ∃ q', callbackOn q s status = some q' :=
    fun status => ⟨_, callbackOn_eq_some.mpr ⟨c, ho, rfl⟩⟩
  obtain ⟨q₁, h₁⟩ := hcb .discovered
  obtain ⟨q₂, h₂⟩ := hcb .updated
  obtain ⟨q₃, h₃⟩ := hcb .disappeared
  unfold sinstReact
  cases (q.sinsts s).state with
  | init =>
    dsimp only
    split_ifs
    · exact ⟨_, _, rfl⟩
    · exact ⟨_, _, by rw [h₁]; rfl⟩
    · exact ⟨_, _, rfl⟩
  | clean =>
    dsimp only
    split_ifs
    · exact ⟨_, _, rfl⟩
    · exact ⟨_, _, by rw [h₃]; rfl⟩
    · exact ⟨_, _, by rw [h₂]; rfl⟩
    · exact ⟨_, _, rfl⟩
  | updating =>
    dsimp only
    split_ifs
    · exact ⟨_, _, rfl⟩
    · exact ⟨_, _, by rw [h₃]; rfl⟩
    · exact ⟨_, _, by rw [h₂]; rfl⟩
    · exact ⟨_, _, rfl⟩

theorem updateSinst_comes (elapsed : Nat)
    (hc : Comes (fun fuel => sinstChanges fuel q s (.got u) elapsed) (some (q₁, changes)))
    (ho : (q₁.sinsts s).smon = some c) :
    ∃ q', Comes (fun fuel => (updateSinst fuel q s (.got u) elapsed).map Prod.fst) (some q') ∧
      Reacts q₁ s changes elapsed (.got u) q' := by
  obtain ⟨q', ret, hr⟩ := sinstReact_returns changes elapsed ho
  refine ⟨q', ?_, reacts_of_got hr⟩
  have hu : Comes (fun fuel => updateSinst fuel q s (.got u) elapsed) (some (q', if ret > 0 then 1 else 0)) := by
    refine comes_bind_some hc ?_
    simp only [hr]
    exact comes_const _
  exact hu.map (Option.map Prod.fst)

theorem Reacts.init_log (h : Reacts q s changes elapsed (.got u) q') (hst : (q.sinsts s).state = .init) :
    (q' = q ∧ (changes ≤ 0 ∨ (q.sinsts s).isReady = false)) ∨
    ((q.sinsts s).isReady = true ∧ ∃ r : Report n, q'.log = r :: q.log ∧ r.status = .discovered ∧
      r.fqsn = (q.sinsts s).fqsn ∧ r.advert = (q.sinsts s).advert) := by
  cases h with
  | quiet hq =>
    refine .inl ⟨rfl, ?_⟩
    rcases hq with h0 | ⟨-, hlt⟩ | ⟨-, hr, -⟩
    · exact .inl (Int.le_of_eq h0)
    · exact .inl (Int.le_of_lt hlt)
    · exact .inr hr
  | pending hc _ _ => exact absurd (hst.symm.trans hc) (by decide)
  | gone hne _ _ => exact absurd hst hne
  | updated hne _ _ _ _ => exact absurd hst hne
  | discovered _ _ hready hcb =>
    obtain ⟨c, -, rfl⟩ := callbackOn_eq_some.mp hcb
    exact .inr ⟨hready, _, rfl, rfl, rfl, rfl⟩

theorem Reacts.init_cases (h : Reacts q s changes elapsed (.got u) q') (hst : (q.sinsts s).state = .init) :
    (q' = q ∧ (changes ≤ 0 ∨ (q.sinsts s).isReady = false)) ∨
    ((q.sinsts s).isReady = true ∧ Heard q q' (plainLabels (q.sinsts s).fqsn)) := by
  rcases h.init_log hst with hquiet | ⟨hready, r, hlog, hstatus, hname, -⟩
  · exact .inl hquiet
  · exact .inr ⟨hready, [r], hlog, r, mem_cons_self .., hstatus, congrArg plainLabels hname⟩

theorem setArec_returns (h : ∀ old, (q.sinsts s).arec = some old → s ∈ (q.arecs old).sinsts) :
    ∃ q' ret, setArec q s a = some (q', ret) := by
  have hoff : ∃ q₁ moved, takeOff q s a = some (q₁, moved) := by
    rw [takeOff_eq]
    cases hold : (q.sinsts s).arec with
    | none => exact ⟨_, _, rfl⟩
    | some old =>
      simp only [slistRemove_of_mem (h old hold), bind_eq_bind, bind_some]
      exact ⟨_, _, rfl⟩
  obtain ⟨q₁, moved, hoff⟩ := hoff
  simp only [setArec, hoff, bind_eq_bind, bind_some]
  exact ⟨_, _, rfl⟩

end react

section alert
variable {q q₁ q' : Querier n k} {s a : Fin n} {live : List (Fin k)} {slots : List (Fin n)}

structure Alerted (q : Querier n k) (slots : List (Fin n)) (q' : Querier n k) : Prop where
  others : ∀ t, t ∉ slots → q'.sinsts t = q.sinsts t
  arecs : ∀ b, q'.arecs b = { q.arecs b with sinsts := (q'.arecs b).sinsts }
  names : ∀ t, (q'.sinsts t).fqsn = (q.sinsts t).fqsn
  said : ∃ new, q'.log = new ++ q.log ∧ ∀ r ∈ new, ∃ t ∈ slots, r.fqsn = (q.sinsts t).fqsn

theorem Alerted.append {slots' : List (Fin n)} (h : Alerted q slots q₁) (h' : Alerted q₁ slots' q') :
    Alerted q (slots ++ slots') q' := by
  obtain ⟨new, hnew, hsaid⟩ := h.said
  obtain ⟨new', hnew', hsaid'⟩ := h'.said
  refine ⟨fun t ht => ?_, fun b => ?_, fun t => (h'.names t).trans (h.names t), new' ++ new, ?_, fun r hr => ?_⟩
  · rw [mem_append, not_or] at ht
    rw [h'.others t ht.2, h.others t ht.1]
  · rw [h'.arecs b, h.arecs b]
  · rw [hnew', hnew, append_assoc]
  · rcases mem_append.mp hr with hr | hr
    · obtain ⟨t, ht, hname⟩ := hsaid' r hr
      exact ⟨t, mem_append_right slots ht, hname.trans (h.names t)⟩
    · obtain ⟨t, ht, hname⟩ := hsaid r hr
      exact ⟨t, mem_append_left slots' ht, hname⟩

theorem alerted_of_alertSinst (h : alertSinst (.got (.arec a)) q s = some q') : Alerted q [s] q' := by
  obtain ⟨q₁, changes, hc, hr⟩ := alertSinst_eq_some h
  have hh := hosted_of_setArec hc
  have hname : (q₁.sinsts s).fqsn = (q.sinsts s).fqsn := by
    rw [hh.entry]
    exact (sameEntry_takeAddress _ _).2.2
  obtain ⟨⟨st, hentry⟩, harecs, -, -, new, hnew, hsaid⟩ := hr.got_frame
  have hothers : ∀ t, t ≠ s → q'.sinsts t = q.sinsts t := fun t ht => by rw [hr.got_others ht, hh.others ht]
  refine ⟨fun t ht => hothers t (by simpa using ht), fun b => ?_, fun t => ?_, new, ?_, fun r hr => ⟨s, by simp, ?_⟩⟩
  · rw [harecs]
    exact hh.arecs b
  · by_cases ht : t = s
    · rw [ht, hentry, ← hname]
    · rw [hothers t ht]
  · rw [hnew, hh.log]
  · rw [hsaid r hr, hname]

theorem alerted_of_runAll (h : runAll (alertSinst (.got (.arec a))) slots q = some q') :
    Alerted q slots q' := by
  induction slots generalizing q with
  | nil =>
    cases h
    exact ⟨fun _ _ => rfl, fun _ => rfl, fun _ => rfl, [], rfl, nofun⟩
  | cons s slots ih =>
    obtain ⟨q₁, hs, h⟩ := runAll_cons_eq_some.mp h
    exact (alerted_of_alertSinst hs).append (ih h)

theorem runAll_arec_returns (hl : q.reg.Linked live) :
    ∃ q', runAll (alertSinst (.got (.arec a))) (q.arecs a).sinsts q = some q' := by
  have hstep : ∀ s slots (q : Querier n k), ((s :: slots).Nodup ∧ q.reg.Linked live ∧
        ∀ t ∈ s :: slots, t ∉ q.sinstsFree ∧ (q.sinsts t).arec = some a) →
      ∃ q', alertSinst (.got (.arec a)) q s = some q' ∧ slots.Nodup ∧ q'.reg.Linked live ∧
        ∀ t ∈ slots, t ∉ q'.sinstsFree ∧ (q'.sinsts t).arec = some a := by
    rintro s slots q ⟨hnodup, hl, hslots⟩
    obtain ⟨hnot, hnodup⟩ := nodup_cons.mp hnodup
    obtain ⟨hs, hhost⟩ := hslots s (mem_cons_self ..)
    obtain ⟨c, -, ho⟩ := hl.owned s hs
    obtain ⟨q₁, changes, hc⟩ := setArec_returns (q := q) (s := s) (a := a)
      (fun old hold => (hl.referrers.mem_iff old s).mpr ⟨hs, hold⟩)
    have hsmon : (q₁.sinsts s).smon = some c := by
      rw [(hosted_of_setArec hc).entry]
      exact (sameEntry_takeAddress _ _).1.trans ho
    obtain ⟨q₂, ret, hr⟩ := sinstReact_returns (u := .arec a) changes 0 hsmon
    have hq₂ : alertSinst (.got (.arec a)) q s = some q₂ := by
      simp only [alertSinst, updateSinst, sinstChanges, hc, hr, bind_eq_bind, bind_some, Option.pure_def,
        map_some]
    have hh : Handles (policy False) live q s q₂ := alertSinst_handles policy_self (.inr rfl) hl hs hhost hq₂
    refine ⟨q₂, hq₂, hnodup, hh.moves.linked hl (List.Subset.refl _), fun t ht => ?_⟩
    have hts : t ≠ s := by
      rintro rfl
      exact hnot ht
    rw [hh.freed t hts, hh.others t hts]
    exact hslots t (mem_cons_of_mem s ht)
  obtain ⟨q', hq', -⟩ := runAll_returns (I := fun slots (q : Querier n k) => slots.Nodup ∧ q.reg.Linked live ∧
    ∀ t ∈ slots, t ∉ q.sinstsFree ∧ (q.sinsts t).arec = some a) hstep
    ⟨hl.referrers.nodup a, hl, fun t ht => (hl.referrers.mem_iff a t).mp ht⟩
  exact ⟨q', hq'⟩

theorem alertSinst_discovers (h : alertSinst (.got (.arec a)) q s = some q') (hres : (q.arecs a).state = .resolved)
    (hst : (q.sinsts s).state = .init) (hsrv : (q.sinsts s).hasSrv = true)
    (hne : (q.sinsts s).ipaddr ≠ (q.arecs a).ipaddr) :
    ∃ r : Report n, q'.log = r :: q.log ∧ r.status = .discovered ∧ r.fqsn = (q.sinsts s).fqsn ∧
      r.advert = { (q.sinsts s).advert with ipaddr := (q.arecs a).ipaddr } := by
  obtain ⟨q₁, changes, hc, hr⟩ := alertSinst_eq_some h
  have hh := hosted_of_setArec hc
  have haddr : takeAddress (q.sinsts s) (q.arecs a) = { q.sinsts s with ipaddr := (q.arecs a).ipaddr, hasA := true } :=
    if_pos hres
  have hentry := hh.entry
  rw [haddr] at hentry
  have hchanges : changes = 1 := by rw [hh.ret, haddr, if_pos (fun h => hne h.symm)]
  rcases hr.init_log (by rw [hentry]; exact hst) with ⟨-, hle | hready⟩ | ⟨-, r, hlog, hstatus, hname, hadvert⟩
  · rw [hchanges] at hle
    exact absurd hle (by decide)
  · rw [hentry, ServiceInstance.isReady, hsrv] at hready
    cases hready
  · rw [hentry] at hname hadvert
    rw [hh.log] at hlog
    exact ⟨r, hlog, hstatus, hname, hadvert⟩

theorem alertSinst_heard (h : alertSinst (.got (.arec a)) q s = some q') (hres : (q.arecs a).state = .resolved)
    (hst : (q.sinsts s).state = .init) (hsrv : (q.sinsts s).hasSrv = true)
    (hne : (q.sinsts s).ipaddr ≠ (q.arecs a).ipaddr) : Heard q q' (plainLabels (q.sinsts s).fqsn) := by
  obtain ⟨r, hlog, hstatus, hname, -⟩ := alertSinst_discovers h hres hst hsrv hne
  exact ⟨[r], hlog, r, mem_cons_self .., hstatus, congrArg plainLabels hname⟩

theorem runAll_discovers (h : runAll (alertSinst (.got (.arec a))) slots q = some q')
    (hnodup : slots.Nodup) (hres : (q.arecs a).state = .resolved)
    (hwait : ∀ s ∈ slots, (q.sinsts s).state = .init ∧ (q.sinsts s).hasSrv = true ∧
      (q.sinsts s).ipaddr ≠ (q.arecs a).ipaddr) :
    ∃ new, q'.log = new ++ q.log ∧ (∀ r ∈ new, r.status = .discovered) ∧ new.reverse.map Report.advert =
      slots.map (fun s => { (q.sinsts s).advert with ipaddr := (q.arecs a).ipaddr }) := by
  induction slots generalizing q with
  | nil =>
    cases h
    exact ⟨[], rfl, nofun, rfl⟩
  | cons s slots ih =>
    obtain ⟨q₁, hs, h⟩ := runAll_cons_eq_some.mp h
    obtain ⟨hnot, hnodup⟩ := nodup_cons.mp hnodup
    obtain ⟨⟨hst, hsrv, hne⟩, hwait⟩ := forall_mem_cons.mp hwait
    obtain ⟨r, hlog, hstatus, -, hadvert⟩ := alertSinst_discovers hs hres hst hsrv hne
    have hal := alerted_of_alertSinst hs
    -- the slots that come later are as they were
    have hsame : ∀ t ∈ slots, q₁.sinsts t = q.sinsts t := by
      intro t ht
      apply hal.others
      rintro hts
      exact hnot (mem_singleton.mp hts ▸ ht)
    have harec := hal.arecs a
    have hip : (q₁.arecs a).ipaddr = (q.arecs a).ipaddr := by rw [harec]
    obtain ⟨new, hnew, hall, hadverts⟩ := ih h hnodup (by rw [harec]; exact hres) (by
      intro t ht
      rw [hsame t ht, hip]
      exact hwait t ht)
    refine ⟨new ++ [r], ?_, ?_, ?_⟩
    · rw [hnew, hlog, append_assoc]
      rfl
    · intro r' hr'
      rcases mem_append.mp hr' with hr' | hr'
      · exact hall r' hr'
      · rw [mem_singleton.mp hr']
        exact hstatus
    · rw [reverse_append, map_append, hadverts, map_cons, hip]
      have htail : slots.map (fun s => { (q₁.sinsts s).advert with ipaddr := (q.arecs a).ipaddr }) =
          slots.map (fun s => { (q.sinsts s).advert with ipaddr := (q.arecs a).ipaddr }) := by
        apply map_congr_left
        intro t ht
        rw [hsame t ht]
      rw [htail, ← hadvert]
      rfl

theorem alertIp_heard (ipaddr : Nat) (hl : q.reg.Linked live) (hs : s ∈ (q.arecs a).sinsts)
    (hres : (q.arecs a).state = .resolved) (hip : (q.arecs a).ipaddr ≠ ipaddr) (hst : (q.sinsts s).state = .init)
    (hsrv : (q.sinsts s).hasSrv = true) (hne : (q.sinsts s).ipaddr ≠ ipaddr) :
    ∃ q', alertIp q a ipaddr = some q' ∧ Heard q q' (plainLabels (q.sinsts s).fqsn) := by
  let q₀ := q.setArec a { q.arecs a with ipaddr }
  have hreg : q₀.reg = q.reg := reg_setArec rfl rfl
  have harec : q₀.arecs a = { q.arecs a with ipaddr } := setArec_self ..
  obtain ⟨q', hq'⟩ := runAll_arec_returns (q := q₀) (a := a) (hreg ▸ hl)
  rw [harec] at hq'
  refine ⟨q', by rw [alertIp_eq, if_neg hip]; exact hq', ?_⟩
  obtain ⟨before, after, hsplit⟩ := append_of_mem hs
  have hnot : s ∉ before := by
    have hnodup : (q.arecs a).sinsts.Nodup := hl.referrers.nodup a
    rw [hsplit] at hnodup
    exact fun hb => (nodup_append.mp hnodup).2.2 s hb s (mem_cons_self ..) rfl
  have hlist : ({ q.arecs a with ipaddr } : ARec n).sinsts = before ++ s :: after := hsplit
  rw [hlist] at hq'
  obtain ⟨q₁, h₁, hq'⟩ := runAll_append_eq_some.mp hq'
  obtain ⟨q₂, h₂, hq'⟩ := runAll_cons_eq_some.mp hq'
  have hbefore := alerted_of_runAll h₁
  have hentry : q₁.sinsts s = q.sinsts s := hbefore.others s hnot
  have hrec := hbefore.arecs a
  rw [harec] at hrec
  have hheard := alertSinst_heard h₂ (by rw [hrec]; exact hres) (by rw [hentry]; exact hst) (by rw [hentry]; exact hsrv)
    (by rw [hentry, hrec]; exact hne)
  rw [hentry] at hheard
  obtain ⟨old, hold, -⟩ := hbefore.said
  obtain ⟨new, hnew, -⟩ := (alerted_of_runAll hq').said
  exact (hheard.before ⟨old, hold⟩).after ⟨new, hnew⟩

variable {m : Message} {r : Resource}

theorem updateArecRx_of_alertIp (httl : r.ttl ≠ 0)
    (h : alertIp (q.setArec a { q.arecs a with state := .resolved }) a (getUint32 m.data r.rdata) = some q₁) :
    ∃ q', updateArecRx q a m r = some q' ∧ q'.log = q₁.log := by
  rw [updateArecRx, if_neg httl, setIp, h]
  exact ⟨_, rfl, rfl⟩

theorem updateArecRx_said (hl : q.reg.Linked live) (httl : r.ttl ≠ 0) :
    ∃ q' new, updateArecRx q a m r = some q' ∧ q'.log = new ++ q.log ∧
      ∀ report ∈ new, ∃ t ∈ (q.arecs a).sinsts, report.fqsn = (q.sinsts t).fqsn := by
  let q₀ := q.setArec a { q.arecs a with state := .resolved }
  have hreg : q₀.reg = q.reg := reg_setArec rfl rfl
  by_cases hip : (q.arecs a).ipaddr = getUint32 m.data r.rdata
  · have hskip : alertIp q₀ a (getUint32 m.data r.rdata) = some q₀ := if_pos (by rw [setArec_self]; exact hip)
    obtain ⟨q', hq', hlog⟩ := updateArecRx_of_alertIp httl hskip
    exact ⟨q', [], hq', hlog, nofun⟩
  · let q₁ := q₀.setArec a { q₀.arecs a with ipaddr := getUint32 m.data r.rdata }
    have hreg₁ : q₁.reg = q₀.reg := reg_setArec rfl rfl
    obtain ⟨q₂, hq₂⟩ := runAll_arec_returns (q := q₁) (a := a) (by rw [hreg₁, hreg]; exact hl)
    have hsinsts : (q₁.arecs a).sinsts = (q₀.arecs a).sinsts := by rw [setArec_self]
    rw [hsinsts] at hq₂
    have hrun : alertIp q₀ a (getUint32 m.data r.rdata) = some q₂ := by
      rw [alertIp_eq, if_neg (by rw [setArec_self]; exact hip)]
      exact hq₂
    obtain ⟨q', hq', hlog⟩ := updateArecRx_of_alertIp httl hrun
    obtain ⟨new, hnew, hsaid⟩ := (alerted_of_runAll hq₂).said
    have hlist : (q₀.arecs a).sinsts = (q.arecs a).sinsts := by rw [setArec_self]
    rw [hlist] at hsaid
    exact ⟨q', new, hq', hlog.trans hnew, hsaid⟩

end alert

end Mdns
