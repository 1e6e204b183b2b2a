import Mdns.Query.Effect
import Mdns.Query.Ledger

/-!
# The instance's functions refine the registry

Every call of `update_sinst` is a sequence of moves, and it touches no slot but its own. The one
thing to be granted is that an SRV record finds a place for its host.
-/
namespace Mdns
open Lib List Option
open Function (update update_eq_self_iff update_idem update_of_ne update_self)

variable {n k : Nat}
  {t : Fin n} {st : SinstState} {ret changes : Int} {fuel elapsed : Nat} {m : Message} {r : Resource}
  {u : News n}

def WfName (fqsn : Mem) : Prop := Expands (.plain fqsn) 0 (plainLabels fqsn)

abbrev Policy (n k : Nat) := Registry (Fin n) (Fin n) (Fin k) Mem → Fin n → Fin n → Prop

/-- A call about one slot: moves of the registry that leave the other slots alone. -/
structure Handles (mayMove : Policy n k) (live : List (Fin k)) (q : Querier n k) (s : Fin n) (q' : Querier n k) :
    Prop where
  moves : Registry.Moves WfName plainLabels mayMove live q.reg q'.reg
  active : q'.smonsActive = q.smonsActive
  others : ∀ t, t ≠ s → q'.sinsts t = q.sinsts t
  freed : ∀ t, t ≠ s → (t ∈ q'.sinstsFree ↔ t ∈ q.sinstsFree)

variable {mayMove : Policy n k} {live : List (Fin k)} {q q₁ q' : Querier n k} {s a : Fin n}

theorem Handles.refl (q : Querier n k) (s : Fin n) : Handles mayMove live q s q :=
  ⟨.refl, rfl, fun _ _ => rfl, fun _ _ => Iff.rfl⟩

theorem Handles.trans (h : Handles mayMove live q s q₁) (h' : Handles mayMove live q₁ s q') :
    Handles mayMove live q s q' :=
  ⟨h.moves.trans h'.moves, h'.active.trans h.active, fun t ht => (h'.others t ht).trans (h.others t ht),
    fun t ht => (h'.freed t ht).trans (h.freed t ht)⟩

theorem setSinst_others (q : Querier n k) (s : Fin n) (i : ServiceInstance n k) (ht : t ≠ s) :
    (q.setSinst s i).sinsts t = q.sinsts t := update_of_ne ht ..

theorem setSinst_self (q : Querier n k) (s : Fin n) (i : ServiceInstance n k) : (q.setSinst s i).sinsts s = i :=
  update_self ..

theorem setArec_self (q : Querier n k) (a : Fin n) (r : ARec n) : (q.setArec a r).arecs a = r :=
  update_self ..

theorem setArec_others (q : Querier n k) (a : Fin n) (r : ARec n) {b : Fin n} (hb : b ≠ a) :
    (q.setArec a r).arecs b = q.arecs b := update_of_ne hb ..

theorem setSinst_setSinst (q : Querier n k) (s : Fin n) (i j : ServiceInstance n k) :
    (q.setSinst s i).setSinst s j = q.setSinst s j := by
  unfold Querier.setSinst
  rw [update_idem]

theorem setArec_setArec (q : Querier n k) (a : Fin n) (r r' : ARec n) :
    (q.setArec a r).setArec a r' = q.setArec a r' := by
  unfold Querier.setArec
  rw [update_idem]

theorem setSmon_self {H I : Type} (q : Querier n k H I) (c : Fin k) (mon : ServiceMonitor n) :
    (q.setSmon c mon).smons c = mon :=
  update_self ..

theorem setSmon_others {H I : Type} (q : Querier n k H I) (c : Fin k) (mon : ServiceMonitor n)
    {d : Fin k} (hd : d ≠ c) :
    (q.setSmon c mon).smons d = q.smons d := update_of_ne hd ..

theorem handles_setSinst {i : ServiceInstance n k} (h : SameEntry i (q.sinsts s)) :
    Handles mayMove live q s (q.setSinst s i) :=
  ⟨by rw [reg_setSinst h]; exact .refl, rfl, fun _ ht => setSinst_others q s i ht, fun _ _ => Iff.rfl⟩

theorem reg_setState (q : Querier n k) (s : Fin n) (st : SinstState) :
    (q.setState s st).reg = { q.reg with shown := update q.reg.shown s st.shown } := by
  have h1 := field_update_same (g := ServiceInstance.smon) (f := q.sinsts) (a := s)
    (b := { q.sinsts s with state := st }) rfl
  have h2 := field_update_same (g := ServiceInstance.arec) (f := q.sinsts) (a := s)
    (b := { q.sinsts s with state := st }) rfl
  have h3 := field_update (fun i : ServiceInstance n k => i.state.shown) q.sinsts s { q.sinsts s with state := st }
  have h4 := field_update_same (g := ServiceInstance.fqsn) (f := q.sinsts) (a := s)
    (b := { q.sinsts s with state := st }) rfl
  simp only [Querier.reg, Querier.setState, Querier.setSinst, h1, h2, h3, h4]

theorem reg_setState_same (h : st.shown = (q.sinsts s).state.shown) : (q.setState s st).reg = q.reg := by
  have hu : update q.reg.shown s st.shown = q.reg.shown := update_eq_self_iff.mpr h
  rw [reg_setState, hu]

theorem shown_of_ne_init (h : st ≠ .init) : st.shown = true := by
  cases st with
  | init => exact absurd rfl h
  | clean => rfl
  | updating => rfl

theorem callbackOn_reg {status : Status} (h : callbackOn q s status = some q') :
    ∃ c, q.reg.owner s = some c ∧ q'.reg = q.reg.tell c (q.reg.name s) status (q.sinsts s).isReady ∧
      q'.sinsts = q.sinsts ∧
      q'.smonsActive = q.smonsActive ∧ q'.sinstsFree = q.sinstsFree := by
  obtain ⟨c, hc, rfl⟩ := callbackOn_eq_some.mp h
  exact ⟨c, hc, rfl, rfl, rfl, rfl⟩

section cleaned

theorem Cleaned.others (h : Cleaned q s q') {t : Fin n} (ht : t ≠ s) : q'.sinsts t = q.sinsts t := by
  rw [h.sinsts, update_of_ne ht]

theorem Cleaned.entry (h : Cleaned q s q') : q'.sinsts s = { q.sinsts s with nextRefresh := uint32Max } := by
  rw [h.sinsts, update_self]

theorem Cleaned.free (h : Cleaned q s q') : q'.sinstsFree = s :: q.sinstsFree := congrArg Registry.free h.reg

theorem Cleaned.freed (h : Cleaned q s q') {t : Fin n} (ht : t ≠ s) : t ∈ q'.sinstsFree ↔ t ∈ q.sinstsFree := by
  rw [h.free, mem_cons]
  exact or_iff_right ht

theorem Cleaned.silent (h : Cleaned q s q') (hs : s ∉ q.sinstsFree)
    (hsh : ∀ c ∈ live, (q.sinsts s).smon = some c → (q.sinsts s).state.shown = false) :
    Handles mayMove live q s q' :=
  ⟨.single (h.reg ▸ .drop hs hsh), h.smonsActive, fun _ ht => h.others ht, fun _ ht => h.freed ht⟩

theorem Cleaned.unseen (h : Cleaned q s q') (hs : s ∉ q.sinstsFree) (hinit : (q.sinsts s).state = .init) :
    Handles mayMove live q s q' :=
  h.silent hs (fun _ _ _ => by rw [hinit]; rfl)

theorem Cleaned.farewell (h : Cleaned q s q₁) (hl : q.reg.Linked live) (hs : s ∉ q.sinstsFree)
    (hst : (q.sinsts s).state ≠ .init) (hcb : callbackOn q₁ s .disappeared = some q') :
    Handles mayMove live q s q' := by
  obtain ⟨c, hc, hreg, hsinsts, hactive, hfree⟩ := callbackOn_reg hcb
  rw [h.reg] at hc hreg
  have ho : q.reg.owner s = some c := hc
  refine ⟨.single ?_, hactive.trans h.smonsActive, fun t ht => ?_, fun t ht => ?_⟩
  · rw [hreg]
    exact .vanish hs (hl.owner_mem hs ho) ho (shown_of_ne_init hst)
  · rw [hsinsts]
    exact h.others ht
  · rw [hfree]
    exact h.freed ht

end cleaned

theorem Hosted.others (h : Hosted q s a q' ret) (ht : t ≠ s) : q'.sinsts t = q.sinsts t := by
  rw [h.sinsts, update_of_ne ht]

theorem Hosted.entry (h : Hosted q s a q' ret) :
    q'.sinsts s = { takeAddress (q.sinsts s) (q.arecs a) with arec := some a } := by
  rw [h.sinsts, update_self]

theorem Hosted.free (h : Hosted q s a q' ret) : q'.sinstsFree = q.sinstsFree :=
  congrArg Registry.free h.reg

theorem Hosted.handles (h : Hosted q s a q' ret) (hs : s ∉ q.sinstsFree) (ha : a ∈ q.arecsActive)
    (hmay : mayMove q.reg s a) : Handles mayMove live q s q' :=
  ⟨.single (h.reg ▸ .attach hs ha hmay), h.smonsActive, fun _ ht => h.others ht, fun _ _ => by rw [h.free]⟩

/-- An SRV record that finds a place for its host: an instance that has one already is not left
without when the records run out, and the move is allowed. -/
structure SrvOk (mayMove : Policy n k) (fuel : Nat) (q : Querier n k) (s : Fin n) (m : Message) (r : Resource) :
    Prop where
  fits : r.ttl ≠ 0 → findArec fuel q m (srvTarget r) = some none → q.arecsFree = [] → (q.sinsts s).arec = none
  found : ∀ a, r.ttl ≠ 0 → findArec fuel q m (srvTarget r) = some (some a) → a ∈ q.arecsActive → mayMove q.reg s a
  fresh : ∀ a spare name, r.ttl ≠ 0 → findArec fuel q m (srvTarget r) = some none → q.arecsFree = a :: spare →
    mayMove (q.reg.enlist a spare name) s a

theorem findFirst_mem {α : Type} {p : α → Option Bool} {l : List α} {x : α} (h : findFirst p l = some (some x)) :
    x ∈ l ∧ p x = some true := by
  induction l with
  | nil => simp [findFirst] at h
  | cons y l ih =>
    simp only [findFirst, bind_eq_bind, bind_eq_some_iff] at h
    obtain ⟨b, hb, h⟩ := h
    cases b with
    | true =>
      simp only [if_true, Option.pure_def, some.injEq] at h
      subst h
      exact ⟨mem_cons_self .., hb⟩
    | false =>
      obtain ⟨hmem, hp⟩ := ih (by simpa using h)
      exact ⟨mem_cons_of_mem y hmem, hp⟩

theorem findFirst_none {α : Type} {p : α → Option Bool} {l : List α} (h : findFirst p l = some none) :
    ∀ x ∈ l, p x = some false := by
  induction l with
  | nil => simp
  | cons y l ih =>
    simp only [findFirst, bind_eq_bind, bind_eq_some_iff] at h
    obtain ⟨b, hb, h⟩ := h
    cases b with
    | true => simp at h
    | false =>
      intro x hx
      rcases mem_cons.mp hx with rfl | hx
      · exact hb
      · exact ih (by simpa using h) x hx

theorem wfName_of_dnameCopy {p : Mem} {src : Nat} {name : Mem}
    (h : dnameCopy fuel p src = some (name, ret)) : WfName name := by
  obtain ⟨ls, g, rfl, hl⟩ := dnameCopy_name h
  have hat : At (encodeName ls ++ g) 0 (encodeName ls) := ⟨[], g, by simp, rfl⟩
  have hexp : Expands (.plain (encodeName ls ++ g)) 0 ls := expands_encodeName hl hat
  rw [WfName, plainLabels_eq hexp]
  exact hexp

theorem reg_enlist (q : Querier n k) (a : Fin n) (free : List (Fin n)) (fqdn : Mem) :
    ({ q with arecsFree := free, arecsActive := a :: q.arecsActive }.setArec a { sinsts := [], fqdn }).reg =
      q.reg.enlist a free fqdn := by
  have h := field_update (ARec.sinsts) q.arecs a ({ sinsts := [], fqdn } : ARec n)
  have h' := field_update (ARec.fqdn) q.arecs a ({ sinsts := [], fqdn } : ARec n)
  simp only [Querier.reg, Querier.setArec, h, h', Registry.enlist]

theorem HostsSrv.handles (h : HostsSrv fuel q s m r q' ret)
    (hs : s ∉ q.sinstsFree) (httl : r.ttl ≠ 0) (hok : SrvOk mayMove fuel q s m r) : Handles mayMove live q s q' := by
  cases h with
  | found hfind hh =>
    have ha := (findFirst_mem hfind).1
    exact hh.handles hs ha (hok.found _ httl hfind ha)
  | full hfind hfree =>
    exact handles_setSinst ⟨rfl, (hok.fits httl hfind hfree).symm, rfl, rfl⟩
  | @fresh a free fqdn copied ret q' hfind hfree hcopy hh =>
    refine ⟨.single ?_, hh.smonsActive, fun t ht => hh.others ht, fun t _ => by rw [hh.free]; rfl⟩
    rw [hh.reg, reg_enlist]
    exact .recruit hs hfree (wfName_of_dnameCopy hcopy) (hok.fresh a free fqdn httl hfind hfree)

theorem srvTimes_sameEntry (i : ServiceInstance n k) (r : Resource) (elapsed : Nat) :
    SameEntry (srvTimes i r elapsed) i :=
  ⟨rfl, rfl, rfl, rfl⟩

theorem TakesSrv.handles (h : TakesSrv fuel q s m r elapsed q' ret) (hs : s ∉ q.sinstsFree)
    (hok : SrvOk mayMove fuel q s m r) :
    Handles mayMove live q s q' := by
  obtain ⟨q₁, moved, hh, rfl, -⟩ := h.hosts
  have hport : (q.setSinst s { q.sinsts s with port := srvPort m.data r }).reg = q.reg :=
    reg_setSinst ⟨rfl, rfl, rfl, rfl⟩
  have hok' : SrvOk mayMove fuel (q.setSinst s { q.sinsts s with port := srvPort m.data r }) s m r := by
    refine ⟨fun h1 h2 h3 => ?_, fun a => ?_, fun a spare name => ?_⟩
    · rw [setSinst_self]
      exact hok.fits h1 h2 h3
    · rw [hport]
      exact hok.found a
    · rw [hport]
      exact hok.fresh a spare name
  have hp : Handles mayMove live q s (q.setSinst s { q.sinsts s with port := srvPort m.data r }) :=
    handles_setSinst ⟨rfl, rfl, rfl, rfl⟩
  exact (hp.trans (hh.handles hs h.ttl hok')).trans (handles_setSinst (srvTimes_sameEntry _ r elapsed))

theorem Reacts.handles_got (h : Reacts q s changes elapsed (.got u) q')
    (hc : changes ≠ -1) (hl : q.reg.Linked live) (hs : s ∉ q.sinstsFree) : Handles mayMove live q s q' := by
  cases h with
  | quiet _ => exact .refl q s
  | pending hst _ _ =>
    refine ⟨?_, rfl, fun t ht => setSinst_others q s _ ht, fun _ _ => Iff.rfl⟩
    rw [reg_setState_same (by rw [hst]; rfl)]
    exact .refl
  | gone _ h1 _ => exact absurd h1 hc
  | @discovered _ q₁ hst _ hready hcb =>
    obtain ⟨c, ho, hreg, hsinsts, hactive, hfree⟩ := callbackOn_reg hcb
    refine ⟨.single ?_, hactive, fun t ht => ?_, fun t _ => ?_⟩
    · rw [reg_setState, hreg, hready]
      exact .discover hs (hl.owner_mem hs ho) ho (show (q.sinsts s).state.shown = false by rw [hst]; rfl)
    · exact (setSinst_others q₁ s _ ht).trans (by rw [hsinsts])
    · exact (show t ∈ q₁.sinstsFree ↔ _ by rw [hfree])
  | @updated _ q₁ hst _ _ _ hcb =>
    obtain ⟨c, ho, hreg, hsinsts, hactive, hfree⟩ := callbackOn_reg hcb
    refine ⟨.single ?_, hactive, fun t ht => ?_, fun t _ => ?_⟩
    · rw [reg_setState_same (by rw [hsinsts, shown_of_ne_init hst]; rfl), hreg]
      exact .change hs (hl.owner_mem hs ho) ho (shown_of_ne_init hst)
    · exact (setSinst_others q₁ s _ ht).trans (by rw [hsinsts])
    · exact (show t ∈ q₁.sinstsFree ↔ _ by rw [hfree])

theorem Reacts.got_frame (h : Reacts q s changes elapsed (.got u) q') :
    (∃ st, q'.sinsts s = { q.sinsts s with state := st }) ∧ q'.arecs = q.arecs ∧ q'.arecsActive = q.arecsActive ∧
      q'.arecsFree = q.arecsFree ∧ ∃ new, q'.log = new ++ q.log ∧ ∀ r ∈ new, r.fqsn = (q.sinsts s).fqsn := by
  cases h with
  | quiet _ => exact ⟨⟨_, rfl⟩, rfl, rfl, rfl, [], rfl, nofun⟩
  | pending _ _ _ => exact ⟨⟨.updating, setSinst_self ..⟩, rfl, rfl, rfl, [], rfl, nofun⟩
  | gone _ _ hcb =>
    obtain ⟨c, -, rfl⟩ := callbackOn_eq_some.mp hcb
    exact ⟨⟨_, rfl⟩, rfl, rfl, rfl, [_], rfl, by simp⟩
  | discovered _ _ _ hcb =>
    obtain ⟨c, -, rfl⟩ := callbackOn_eq_some.mp hcb
    exact ⟨⟨.clean, setSinst_self ..⟩, rfl, rfl, rfl, [_], rfl, by simp⟩
  | updated _ _ _ _ hcb =>
    obtain ⟨c, -, rfl⟩ := callbackOn_eq_some.mp hcb
    exact ⟨⟨.clean, setSinst_self ..⟩, rfl, rfl, rfl, [_], rfl, by simp⟩

theorem Reacts.got_others (h : Reacts q s changes elapsed (.got u) q') (ht : t ≠ s) : q'.sinsts t = q.sinsts t := by
  cases h with
  | quiet _ => rfl
  | pending _ _ _ => exact setSinst_others q s _ ht
  | gone _ _ hcb =>
    obtain ⟨c, -, rfl⟩ := callbackOn_eq_some.mp hcb
    rfl
  | discovered _ _ _ hcb =>
    obtain ⟨c, -, rfl⟩ := callbackOn_eq_some.mp hcb
    exact setSinst_others _ s _ ht
  | updated _ _ _ _ hcb =>
    obtain ⟨c, -, rfl⟩ := callbackOn_eq_some.mp hcb
    exact setSinst_others _ s _ ht

theorem age_sameEntry (i : ServiceInstance n k) (elapsed : Nat) : SameEntry (i.age elapsed) i := ⟨rfl, rfl, rfl, rfl⟩

theorem reschedule_sameEntry (i : ServiceInstance n k) (elapsed : Nat) : SameEntry (i.age elapsed).reschedule i :=
  ⟨rfl, rfl, rfl, rfl⟩

theorem Ages.handles (h : Ages q s elapsed q' ret) (hret : ret ≠ -1) :
    Handles mayMove live q s q' := by
  cases h with
  | waits _ => exact handles_setSinst (age_sameEntry _ elapsed)
  | @asks tx _ _ _ =>
    have htx : Handles mayMove live q s { q with tx } := ⟨.refl, rfl, fun _ _ => rfl, fun _ _ => Iff.rfl⟩
    exact htx.trans (handles_setSinst (reschedule_sameEntry _ elapsed))
  | crowded _ _ _ => exact handles_setSinst (reschedule_sameEntry _ elapsed)
  | expires _ _ _ => exact absurd rfl hret

theorem Ages.state (h : Ages q s elapsed q' ret) : (q'.sinsts s).state = (q.sinsts s).state := by
  cases h with
  | waits _ => rw [setSinst_self]; rfl
  | asks _ _ _ => rw [setSinst_self]; rfl
  | crowded _ _ _ => rw [setSinst_self]; rfl
  | expires _ _ hc => rw [(cleaned_of_cleanupSinst hc).entry, setSinst_self]; rfl

theorem Ages.expired (h : Ages q s elapsed q' (-1)) :
    Cleaned (q.setSinst s ((q.sinsts s).age elapsed)) s q' := by
  cases h with
  | expires _ _ hc => exact cleaned_of_cleanupSinst hc

theorem Reacts.handles_lostArec (h : Reacts q s changes elapsed .lostArec q')
    (hl : q.reg.Linked live) (hs : s ∉ q.sinstsFree) : Handles mayMove live q s q' := by
  cases h with
  | lost hst hc => exact (cleaned_of_cleanupSinst hc).unseen hs hst
  | lostShown hst hc hcb => exact (cleaned_of_cleanupSinst hc).farewell hl hs hst hcb

theorem Reacts.handles_addQuestions (h : Reacts q s changes elapsed .addQuestions q')
    (hl : q.reg.Linked live) (hs : s ∉ q.sinstsFree) : Handles mayMove live q s q' := by
  have haged : Handles mayMove live q s (q.setSinst s ((q.sinsts s).age elapsed)) :=
    handles_setSinst (age_sameEntry _ elapsed)
  have hreg : (q.setSinst s ((q.sinsts s).age elapsed)).reg = q.reg := reg_setSinst (age_sameEntry _ elapsed)
  have hstate : ((q.setSinst s ((q.sinsts s).age elapsed)).sinsts s).state = (q.sinsts s).state := by
    rw [setSinst_self]
    rfl
  cases h with
  | aged ha hret => exact (ages_of_applyElapsed ha).handles hret
  | @asked q₁ hst ha =>
    have h₁ := ages_of_applyElapsed ha
    have hflag : Handles mayMove live q₁ s (q₁.setSinst s { q₁.sinsts s with hasSrv := false }) :=
      handles_setSinst ⟨rfl, rfl, rfl, rfl⟩
    refine ((h₁.handles (by simp)).trans hflag).trans
      ⟨?_, rfl, fun t ht => setSinst_others _ s _ ht, fun _ _ => Iff.rfl⟩
    rw [reg_setState_same]
    · exact .refl
    · rw [setSinst_self]
      show SinstState.shown .updating = (q₁.sinsts s).state.shown
      rw [h₁.state, hst]
      rfl
  | expired hst ha =>
    exact haged.trans ((ages_of_applyElapsed ha).expired.unseen hs (hstate.trans hst))
  | expiredShown hst ha hcb =>
    exact haged.trans ((ages_of_applyElapsed ha).expired.farewell (hreg ▸ hl) hs (hstate ▸ hst) hcb)

def EventOk (mayMove : Policy n k) (fuel : Nat) (q : Querier n k) (s : Fin n) : SinstEvent n → Prop
  | .got (.srv m r) => SrvOk mayMove fuel q s m r
  | .got (.arec a) => a ∈ q.arecsActive ∧ mayMove q.reg s a
  | .got (.txt _ _) => True
  | .lostArec => True
  | .addQuestions => True

theorem movedFrom_nonneg (i : ServiceInstance n k) (a : Fin n) : 0 ≤ movedFrom i a := by
  unfold movedFrom
  cases i.arec with
  | none => exact le_rfl
  | some old =>
    rw [elim_some]
    split <;> decide

theorem flag_ne (p : Prop) [Decidable p] : (if p then (1 : Int) else 0) ≠ -1 := by
  split <;> decide

theorem Hosted.ret_nonneg (h : Hosted q s a q' ret) : 0 ≤ ret := by
  rw [h.ret]
  split
  · decide
  · exact movedFrom_nonneg _ _

theorem HostsSrv.ret_nonneg (h : HostsSrv fuel q s m r q' ret) :
    0 ≤ ret := by
  cases h with
  | found _ hh => exact hh.ret_nonneg
  | full _ _ => exact le_rfl
  | fresh _ _ _ hh => exact hh.ret_nonneg

theorem handles_of_updateSinst {e : SinstEvent n}
    (h : updateSinst fuel q s e elapsed = some (q', ret)) (hl : q.reg.Linked live) (hs : s ∉ q.sinstsFree)
    (hok : EventOk mayMove fuel q s e) : Handles mayMove live q s q' := by
  obtain ⟨q₁, changes, hc, hr⟩ := updateSinst_eq_some h
  -- after an update that leaves the slot in use, the reaction is handled
  have hgot : ∀ {u}, e = .got u → Handles mayMove live q s q₁ → q₁.sinstsFree = q.sinstsFree → changes ≠ -1 →
      Handles mayMove live q s q' := by
    rintro u rfl h₁ hfree hne
    exact h₁.trans (hr.handles_got hne (h₁.moves.linked hl (List.Subset.refl _)) (hfree ▸ hs))
  cases e with
  | lostArec =>
    cases hc
    exact hr.handles_lostArec hl hs
  | addQuestions =>
    cases hc
    exact hr.handles_addQuestions hl hs
  | got u =>
    cases u with
    | txt m r =>
      obtain ⟨j, c, hj, hc⟩ := bind_pair_eq_some.mp hc
      cases hc
      have hsame : SameEntry j (q.sinsts s) ∧ changes ≠ -1 := by
        rcases updateTxt_eq_some hj with ⟨rfl, rfl⟩ | ⟨_, _, _, rfl, rfl⟩
        · exact ⟨⟨rfl, rfl, rfl, rfl⟩, by decide⟩
        · exact ⟨⟨rfl, rfl, rfl, rfl⟩, by decide⟩
      exact hgot rfl (handles_setSinst hsame.1) rfl hsame.2
    | arec a =>
      have hh := hosted_of_setArec hc
      exact hgot rfl (hh.handles hs hok.1 hok.2) hh.free (by have := hh.ret_nonneg; omega)
    | srv m r =>
      rcases updateSrv_eq_some hc with ⟨-, hclean, rfl⟩ | htakes
      · have hcl := cleaned_of_cleanupSinst hclean
        have hst : (q₁.sinsts s).state = (q.sinsts s).state := by rw [hcl.entry]
        cases hr with
        | quiet hq =>
          -- only an instance that is not shown goes without a callback
          refine hcl.unseen hs ?_
          rcases hq with h0 | ⟨hi, _⟩ | ⟨h1, _⟩
          · cases h0
          · exact hst ▸ hi
          · exact absurd rfl h1
        | pending _ h1 _ => exact absurd rfl h1
        | gone hsh _ hcb => exact hcl.farewell hl hs (hst ▸ hsh) hcb
        | discovered _ h0 _ _ => exact absurd h0 (by decide)
        | updated _ _ h1 _ _ => exact absurd rfl h1
      · have h₁ : Handles mayMove live q s q₁ := htakes.handles hs hok
        refine hgot rfl h₁ ?_ ?_
        · obtain ⟨q₂, moved, hh, rfl, -⟩ := htakes.hosts
          cases hh with
          | found _ hh => exact hh.free
          | full _ _ => rfl
          | fresh _ _ _ hh => exact hh.free
        · obtain ⟨q₂, moved, -, -, rfl⟩ := htakes.hosts
          exact flag_ne _

end Mdns
