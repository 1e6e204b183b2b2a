import Mdns.Query.Links
import Mdns.Query.Table

/-!
# The two readings over whole runs

`set_ip` takes the next element before the body moves the current one to the head, and `evict_arec`
takes it from the link that an instance keeps when it is taken off.
-/
namespace Mdns
open Lib List Option

variable {n k fuel : Nat}

section loops
variable {L L' : Threaded fuel n k} {lists : Fin n → List (Fin n)} {s a : Fin n}
  {q q' : Querier n k} {xs : List (Fin n)}

theorem leaveHost_next (h : leaveHost L s = some L') : L'.alist.next s = L.alist.next s := by
  unfold leaveHost at h
  split at h
  · cases h
    rfl
  · next a _ =>
    unfold leaveArec at h
    obtain ⟨⟨refs, l⟩, hrem, h⟩ := bind_eq_some_iff.mp h
    dsimp only at h
    split at h
    · obtain ⟨active, -, h⟩ := bind_eq_some_iff.mp h
      cases h
      exact remove_next hrem
    · cases h
      exact remove_next hrem

theorem cleanupSinst_next (h : cleanupSinst L s = some L') : L'.alist.next s = L.alist.next s := by
  unfold cleanupSinst at h
  simp only [bind_eq_bind, bind_eq_some_iff] at h
  obtain ⟨c, -, members, -, L₁, hleave, h⟩ := h
  cases h
  have hnext := leaveHost_next hleave
  exact hnext

theorem callbackOn_alist {status : Status} (h : callbackOn L s status = some L') : L'.alist = L.alist := by
  obtain ⟨c, -, h⟩ := bind_eq_some_iff.mp h
  cases h
  rfl

theorem alertSinst_lost_next (h : alertSinst .lostArec L s = some L') : L'.alist.next s = L.alist.next s := by
  obtain ⟨⟨L₁, ret⟩, hu, rfl⟩ := map_eq_some_iff.mp h
  obtain ⟨⟨L₃, changes⟩, hreact, hu⟩ := bind_eq_some_iff.mp hu
  cases hu
  unfold sinstReact at hreact
  dsimp only at hreact
  split at hreact
  · obtain ⟨L₄, hclean, hr⟩ := bind_eq_some_iff.mp hreact
    cases hr
    exact cleanupSinst_next hclean
  all_goals
    obtain ⟨L₄, hclean, hr⟩ := bind_eq_some_iff.mp hreact
    obtain ⟨L₅, hcb, hr⟩ := bind_eq_some_iff.mp hr
    cases hr
    have halist := callbackOn_alist hcb
    have hnext := cleanupSinst_next hclean
    rw [← halist] at hnext
    exact hnext

theorem alertSinst_lost_sinsts (h : alertSinst .lostArec q s = some q') (ha : (q.sinsts s).arec = some a) :
    (q'.arecs a).sinsts = (q.arecs a).sinsts.erase s := by
  have hclean : ∀ {q₁ : Querier n k}, cleanupSinst q s = some q₁ →
    (q₁.arecs a).sinsts = (q.arecs a).sinsts.erase s := by
    intro q₁ hq₁
    have hrefs : q₁.reg.referrers a = unlink q.reg.host q.reg.referrers s a := by
      rw [(cleaned_of_cleanupSinst hq₁).reg]
      rfl
    have hhost : q.reg.host s = some a := ha
    rw [unlink_apply, if_pos hhost] at hrefs
    exact hrefs
  obtain ⟨q₁, changes, hc, hr⟩ := alertSinst_eq_some h
  cases hc
  cases hr with
  | lost _ hq => exact hclean hq
  | lostShown _ hq hcb =>
    have herase := hclean hq
    obtain ⟨c, -, rfl⟩ := callbackOn_eq_some.mp hcb
    exact herase

theorem alertSinst_arec_sinsts (h : alertSinst (.got (.arec a)) q s = some q')
    (ha : (q.sinsts s).arec = some a) : (q'.arecs a).sinsts = s :: (q.arecs a).sinsts.erase s := by
  obtain ⟨q₁, changes, hc, hr⟩ := alertSinst_eq_some h
  obtain ⟨-, harecs, -⟩ := hr.got_frame
  have hrefs : q₁.reg.referrers a = link (unlink q.reg.host q.reg.referrers s) a s a := by
    rw [(hosted_of_setArec hc).reg]
    rfl
  have hhost : q.reg.host s = some a := ha
  rw [link, Function.update_self, unlink_apply, if_pos hhost] at hrefs
  rw [harecs]
  exact hrefs

/-- The loop of `evict_arec`: what is left of the list is the whole list. -/
theorem evict_loop_mirrors {rounds : Nat} (h : Coherent L lists) (hxs : lists a = xs) (hlen : xs.length ≤ rounds) :
    Option.Rel Mirrors (Links.each Querier.alist (alertSinst .lostArec) rounds xs.head? L)
      (runAll (alertSinst .lostArec) xs (L.mirror lists)) := by
  induction xs generalizing L lists rounds with
  | nil =>
    cases rounds <;> exact .some ⟨lists, h, rfl⟩
  | cons s xs ih =>
    obtain ⟨rounds, rfl⟩ : ∃ r, rounds = r + 1 := ⟨rounds - 1, by rw [length_cons] at hlen; omega⟩
    have hmem : s ∈ lists a := by
      rw [hxs]
      exact mem_cons_self ..
    have hnext : L.alist.next s = xs.head? := by
      have hshows := h.shows a
      rw [hxs] at hshows
      exact hshows.2.head_eq
    have hbody := alertSinst_mirrors (s := s) (e := .lostArec) h nofun nofun
    rw [runAll]
    show Option.Rel Mirrors (alertSinst .lostArec L s >>= fun L' => Links.each _ _ rounds (L'.alist.next s) L') _
    cases hq : alertSinst .lostArec (L.mirror lists) s with
    | none =>
      rw [hq] at hbody
      generalize alertSinst .lostArec L s = x at hbody
      cases hbody
      exact .none
    | some q' =>
      rw [hq] at hbody
      obtain ⟨L', hL', lists', h', rfl⟩ := rel_some_right hbody
      have hrest : lists' a = xs := by
        have herase := alertSinst_lost_sinsts hq (h.points a s hmem)
        have herase : lists' a = (lists a).erase s := herase
        rw [herase, hxs, erase_cons_head]
      rw [hL', bind_eq_bind, bind_some, alertSinst_lost_next hL', hnext]
      exact ih h' hrest (Nat.le_of_succ_le_succ hlen)

/-- The loop of `set_ip`: what is left of the list is its end. -/
theorem alert_loop_mirrors {done : List (Fin n)} {rounds : Nat} (h : Coherent L lists) (hxs : lists a = done ++ xs)
    (hlen : xs.length ≤ rounds) :
    Option.Rel Mirrors (Links.eachSafe Querier.alist (alertSinst (.got (.arec a))) rounds xs.head? L)
      (runAll (alertSinst (.got (.arec a))) xs (L.mirror lists)) := by
  induction xs generalizing L lists rounds done with
  | nil =>
    cases rounds <;> exact .some ⟨lists, h, rfl⟩
  | cons s xs ih =>
    obtain ⟨rounds, rfl⟩ : ∃ r, rounds = r + 1 := ⟨rounds - 1, by rw [length_cons] at hlen; omega⟩
    have hmem : s ∈ lists a := by
      rw [hxs]
      exact mem_append_right _ (mem_cons_self ..)
    have hnext : L.alist.next s = xs.head? := by
      have hshows := h.shows a
      rw [hxs] at hshows
      exact hshows.suffix.2.head_eq
    have hbody := alertSinst_mirrors (s := s) (e := .got (.arec a)) h (fun _ _ => h.used a s hmem) nofun
    rw [runAll]
    show Option.Rel Mirrors (alertSinst (.got (.arec a)) L s >>= Links.eachSafe _ _ rounds (L.alist.next s)) _
    rw [hnext]
    cases hq : alertSinst (.got (.arec a)) (L.mirror lists) s with
    | none =>
      rw [hq] at hbody
      generalize alertSinst (.got (.arec a)) L s = x at hbody
      cases hbody
      exact .none
    | some q' =>
      rw [hq] at hbody
      obtain ⟨L', hL', lists', h', rfl⟩ := rel_some_right hbody
      have hrest : lists' a = (s :: done) ++ xs := by
        have hmoved := alertSinst_arec_sinsts hq (h.points a s hmem)
        have hmoved : lists' a = s :: (lists a).erase s := hmoved
        have hnodup := h.nodup a
        rw [hxs] at hnodup
        have hdone : s ∉ done := fun hd => (nodup_append.mp hnodup).2.2 s hd s (mem_cons_self ..) rfl
        rw [hmoved, hxs, erase_append_right _ hdone, erase_cons_head]
        rfl
      rw [hL', bind_eq_bind, bind_some]
      exact ih h' hrest (Nat.le_of_succ_le_succ hlen)

end loops

section arecs
variable {L : Threaded fuel n k} {lists : Fin n → List (Fin n)} {s a : Fin n} {elapsed : Nat}

theorem Coherent.length_le (h : Coherent L lists) (hfuel : n ≤ fuel) : (lists a).length ≤ fuel := by
  have hcard := (h.nodup a).length_le_card
  rw [Fintype.card_fin] at hcard
  exact hcard.trans hfuel

theorem alertIp_mirrors (h : Coherent L lists) (hfuel : n ≤ fuel) (ipaddr : Nat) :
    Option.Rel Mirrors (alertIp L a ipaddr) (alertIp (L.mirror lists) a ipaddr) := by
  refine rel_ite (fun _ => .some ⟨lists, h, rfl⟩) (fun _ => ?_)
  have hset := h.setArec (a := a) (r := { L.arecs a with ipaddr }) rfl
  have hloop := alert_loop_mirrors hset (show lists a = [] ++ lists a from rfl) (h.length_le hfuel)
  rw [mirror_setArec L lists a] at hloop
  show Option.Rel Mirrors (Links.eachSafe _ _ fuel (L.arecs a).sinsts _) _
  rw [(h.shows a).head_eq]
  exact hloop

theorem setIp_mirrors {m : Message} {r : Resource} (h : Coherent L lists) (hfuel : n ≤ fuel) :
    Option.Rel Mirrors (setIp L a m r) (setIp (L.mirror lists) a m r) :=
  rel_mirrors (alertIp_mirrors h hfuel _) (fun L' _ h' => .some (h'.mirrors_setArec
    { L'.arecs a with ttl := convertTtl r.ttl, nextRefresh := percent (convertTtl r.ttl) 80, ttlPercent := 10 } rfl))

theorem evictArec_mirrors (h : Coherent L lists) (hfuel : n ≤ fuel) :
    Option.Rel Mirrors (evictArec L a) (evictArec (L.mirror lists) a) := by
  have hloop := evict_loop_mirrors h rfl (h.length_le (a := a) hfuel)
  rw [← (h.shows a).head_eq] at hloop
  refine rel_mirrors hloop (fun L' lists' h' => ?_)
  have hempty : AList.isEmpty (Links fuel n) (L'.arecs a).sinsts = (lists' a).isEmpty := by
    rw [(h'.shows a).head_eq]
    cases lists' a <;> rfl
  rw [hempty]
  exact rel_ite (fun _ => .some (h'.mirrors_setArec { L'.arecs a with nextRefresh := uint32Max } rfl)) (fun _ => .none)

theorem updateArecRx_mirrors {m : Message} {r : Resource} (h : Coherent L lists) (hfuel : n ≤ fuel) :
    Option.Rel Mirrors (updateArecRx L a m r) (updateArecRx (L.mirror lists) a m r) := by
  refine rel_ite (fun _ => evictArec_mirrors h hfuel) (fun _ => ?_)
  have hset := setIp_mirrors (a := a) (m := m) (r := r)
    (h.setArec (a := a) (r := { L.arecs a with state := .resolved }) rfl) hfuel
  rw [mirror_setArec L lists a] at hset
  exact hset

theorem askArec_mirrors {r : ARec n (Option (Fin n))} (h : Coherent L lists) (hr : r.sinsts = (L.arecs a).sinsts) :
    Mirrors (askArec L a r) (askArec (L.mirror lists) a { r with sinsts := lists a }) := by
  have htx := h.frame (M := { L with tx := (mdnsAddQuestion L.tx r.fqdn tA cIn).getD L.tx }) rfl
    (fun _ => rfl) (fun _ => rfl)
    (List.Subset.refl _)
  exact htx.mirrors_setArec r hr

theorem updateArecAdd_mirrors (h : Coherent L lists) (hfuel : n ≤ fuel) :
    Option.Rel MirrorsWith (updateArecAdd L a elapsed) (updateArecAdd (L.mirror lists) a elapsed) := by
  have haged : Coherent (L.setArec a ((L.arecs a).age elapsed)) lists := h.setArec rfl
  have hwaits : MirrorsWith (L.setArec a ((L.arecs a).age elapsed), (0 : Int))
      ((L.mirror lists).setArec a (((L.mirror lists).arecs a).age elapsed), 0) :=
        ⟨h.mirrors_setArec ((L.arecs a).age elapsed) rfl, rfl⟩
  unfold updateArecAdd
  have hst : ((L.mirror lists).arecs a).state = (L.arecs a).state := rfl
  rw [hst]
  cases (L.arecs a).state with
  | init => exact .some ⟨askArec_mirrors (r := (L.arecs a).launch) h rfl, rfl⟩
  | querying =>
    refine rel_ite (fun _ => ?_) (fun _ => rel_ite (fun _ => ?_) (fun _ => .some hwaits))
    · have hevict := evictArec_mirrors (a := a) haged hfuel
      rw [mirror_setArec L lists a] at hevict
      exact rel_mirrors hevict (fun _ lists' h' => .some ⟨⟨lists', h', rfl⟩, rfl⟩)
    · exact .some ⟨askArec_mirrors (r := ((L.arecs a).age elapsed).retry) h rfl, rfl⟩
  | resolved =>
    refine rel_ite (fun _ => ?_) (fun _ => .some hwaits)
    exact .some ⟨askArec_mirrors (r := ((L.arecs a).age elapsed).refresh) h rfl, rfl⟩

end arecs

section responses
variable {L : Threaded fuel n k} {lists : Fin n → List (Fin n)} {walk elapsed : Nat} {m : Message} {r : Resource}

theorem overflow_mirrors {c : Fin k} (h : Coherent L lists) :
    Option.Rel MirrorsWith (overflow walk L m c r) (overflow walk (L.mirror lists) m c r) := by
  refine rel_bind_same (fun info _ => ?_)
  cases info with
  | none => exact .some ⟨⟨lists, h, rfl⟩, rfl⟩
  | some i =>
    refine rel_bind_same (fun txts _ => rel_bind_same (fun srvs _ => rel_bind_same (fun i' _ => rel_mirrors ?_ ?_)))
    · exact rel_bind_same
        (fun c _ => .some ⟨lists, h.frame rfl (fun _ => rfl) (fun _ => rfl) (List.Subset.refl _), rfl⟩)
    · exact fun L' lists' h' => .some ⟨⟨lists', h', rfl⟩, rfl⟩

theorem sayGoodbye_mirrors {s : Fin n} (h : Coherent L lists) :
    Option.Rel Mirrors (sayGoodbye L s) (sayGoodbye (L.mirror lists) s) :=
  rel_ite (fun _ => .some ⟨lists, h, rfl⟩) (fun _ => callbackOn_mirrors h _)

theorem ptrStep_mirrors (h : Coherent L lists) :
    Option.Rel MirrorsWith (ptrStep walk elapsed (L, m) r) (ptrStep walk elapsed (L.mirror lists, m) r) := by
  have hsame : MirrorsWith (L, m) (L.mirror lists, m) := ⟨⟨lists, h, rfl⟩, rfl⟩
  refine rel_bind_same (z := findServiceMonitor walk L (.packet m.data) (some r.name)) (fun found _ => ?_)
  cases found with
  | none => exact .some hsame
  | some c =>
    refine rel_bind_same (z := findServiceInstance walk L c m r.rdata) (fun found _ => ?_)
    cases found with
    | some s =>
      refine rel_ite (fun _ => ?_) (fun _ => .some ⟨⟨lists, h.setSinst rfl, rfl⟩, rfl⟩)
      exact rel_mirrors (sayGoodbye_mirrors h) (fun _ _ h₁ => rel_mirrors (cleanupSinst_mirrors h₁)
        (fun _ lists₂ h₂ => .some ⟨⟨lists₂, h₂, rfl⟩, rfl⟩))
    | none =>
      have hfree' : (L.mirror lists).sinstsFree = L.sinstsFree := rfl
      simp only [hfree']
      cases hfree : L.sinstsFree with
      | nil => exact rel_ite (fun _ => .some hsame) (fun _ => overflow_mirrors h)
      | cons s free =>
        have hoff := h.off_of_free (s := s) (by rw [hfree]; exact mem_cons_self ..)
        have hreset := h.resetLink hoff
        refine rel_bind_same (fun info _ => ?_)
        cases info with
        | none => exact .some ⟨⟨lists, hreset.setSinst_off hoff, rfl⟩, rfl⟩
        | some i =>
          have hnew := hreset.frame (M := Querier.setSmon { L.resetLink s with sinstsFree := free } c
            { L.smons c with sinsts := s :: (L.smons c).sinsts }) rfl (fun _ => rfl) (fun _ => rfl)
            (by rw [show (L.resetLink s).sinstsFree = s :: free from hfree]; exact subset_cons_self ..)
          exact .some ⟨⟨lists, hnew.setSinst_off hoff, rfl⟩, rfl⟩

theorem txtStep_mirrors (h : Coherent L lists) (hs : (L.mirror lists).Sound False) :
    Option.Rel Mirrors (guarded (fitting.txtMet walk m) (txtStep walk elapsed m) L r)
      (guarded (fitting.txtMet walk m) (txtStep walk elapsed m) (L.mirror lists) r) := by
  refine rel_guarded rfl (fun _ => rel_bind_same (z := sinstOf walk L m r) (fun found hfound => ?_))
  cases found with
  | none => exact .some ⟨lists, h, rfl⟩
  | some s =>
    have hused := not_free_of_sinstOf hs.linked (q := L.mirror lists) hfound
    exact rel_map (updateSinst_mirrors h (fun _ _ => hused) nofun) (fun _ _ hr => hr.1)

theorem srvStep_mirrors (h : Coherent L lists) (hs : (L.mirror lists).Sound False) :
    Option.Rel Mirrors (guarded (fitting.srvMet walk m) (srvStep walk elapsed m) L r)
      (guarded (fitting.srvMet walk m) (srvStep walk elapsed m) (L.mirror lists) r) := by
  refine rel_guarded rfl (fun hmet => rel_bind_same (z := sinstOf walk L m r) (fun found hfound => ?_))
  cases found with
  | none => exact .some ⟨lists, h, rfl⟩
  | some s =>
    have hused := not_free_of_sinstOf hs.linked (q := L.mirror lists) hfound
    have hmet : fitting.srvMet walk m L r = true := hmet
    rw [Guard.srvMet, hfound] at hmet
    refine rel_map (updateSinst_mirrors h (fun _ _ => hused) (fun m' r' heq => ?_)) (fun _ _ hr => hr.1)
    cases heq
    exact hmet

theorem aStep_mirrors (h : Coherent L lists) (hfuel : n ≤ fuel) :
    Option.Rel Mirrors (guarded (fitting.aMet walk m) (aStep walk m) L r)
      (guarded (fitting.aMet walk m) (aStep walk m) (L.mirror lists) r) := by
  refine rel_guarded rfl (fun _ => rel_bind_same (z := findArec walk L m r.name) (fun found _ => ?_))
  cases found with
  | none => exact .some ⟨lists, h, rfl⟩
  | some a => exact updateArecRx_mirrors h hfuel

theorem guardedCache_mirrors (h : Coherent L lists) (hs : (L.mirror lists).Sound False) (hfuel : n ≤ fuel) :
    Option.Rel Mirrors (guardedCache fitting walk elapsed L m)
      (guardedCache fitting walk elapsed (L.mirror lists) m) := by
  refine rel_ite (fun _ => ?_) (fun _ => .some ⟨lists, h, rfl⟩)
  have hptrs := rel_runAll (R := fun (x : Threaded fuel n k × Message) y => MirrorsWith x y ∧ y.1.Sound False)
    (f := ptrStep walk elapsed) (g := ptrStep walk elapsed) (l := m.ptrs) (s := (L, m)) (t := (L.mirror lists, m)) ?_
    ⟨⟨⟨lists, h, rfl⟩, rfl⟩, hs⟩
  · refine rel_bind hptrs ?_
    rintro ⟨L₁, m₁⟩ ⟨q₁, m₂⟩ ⟨⟨hmirrors, hm⟩, hs₁⟩
    obtain rfl : m₁ = m₂ := hm
    have htxts := rel_runAll (R := fun (x : Threaded fuel n k) y => Mirrors x y ∧ y.Sound False)
      (f := guarded (fitting.txtMet walk m₁) (txtStep walk elapsed m₁))
      (g := guarded (fitting.txtMet walk m₁) (txtStep walk elapsed m₁)) (l := m₁.txts) ?_ ⟨hmirrors, hs₁⟩
    · refine rel_bind htxts (fun L₂ q₂ hr₂ => ?_)
      have hsrvs := rel_runAll (R := fun (x : Threaded fuel n k) y => Mirrors x y ∧ y.Sound False)
        (f := guarded (fitting.srvMet walk m₁) (srvStep walk elapsed m₁))
        (g := guarded (fitting.srvMet walk m₁) (srvStep walk elapsed m₁)) (l := m₁.srvs) ?_ hr₂
      · refine rel_bind hsrvs (fun L₃ q₃ hr₃ => rel_runAll ?_ hr₃.1)
        rintro L₄ q₄ r - ⟨lists₄, h₄, rfl⟩
        exact aStep_mirrors h₄ hfuel
      · rintro L₃ q₃ r - ⟨⟨lists₃, h₃, rfl⟩, hs₃⟩
        exact rel_and (srvStep_mirrors h₃ hs₃) (fun q hq => srvStep_sound fitting_hosts hs₃ hq)
    · rintro L₂ q₂ r - ⟨⟨lists₂, h₂, rfl⟩, hs₂⟩
      exact rel_and (txtStep_mirrors h₂ hs₂)
        (fun q hq => (txtStep_advances hs₂.linked (guarded_eq_some.mp hq).2).sound hs₂)
  · rintro ⟨L₁, m₁⟩ ⟨q₁, m₂⟩ r - ⟨⟨⟨lists₁, h₁, hq⟩, hm⟩, hs₁⟩
    obtain rfl : q₁ = L₁.mirror lists₁ := hq
    obtain rfl : m₁ = m₂ := hm
    exact rel_and (ptrStep_mirrors h₁) (fun q hq => ((takesPtr_of_ptrStep hq).advances hs₁.linked hs₁.named).sound hs₁)

end responses

section calls
variable {L : Threaded fuel n k} {lists : Fin n → List (Fin n)} {walk elapsed : Nat} {c : Fin k} {fqst : Mem}

/-- The two readings of what the loops of `prepare_query` carry along. -/
structure SchedMirrors (x : Sched n k (Option (Fin n)) (Links fuel n)) (y : Sched n k) : Prop where
  q : Mirrors x.q y.q
  ret : x.ret = y.ret
  next : x.next = y.next

def Sched.mirror (x : Sched n k (Option (Fin n)) (Links fuel n)) (lists : Fin n → List (Fin n)) : Sched n k :=
  ⟨x.q.mirror lists, x.ret, x.next⟩

theorem SchedMirrors.exists_mirror {x : Sched n k (Option (Fin n)) (Links fuel n)} {y : Sched n k}
    (h : SchedMirrors x y) :
    ∃ lists, Coherent x.q lists ∧ y = x.mirror lists := by
  obtain ⟨⟨lists, hq, heq⟩, hret, hnext⟩ := h
  cases y
  cases heq
  cases hret
  cases hnext
  exact ⟨lists, hq, rfl⟩

section sched
variable {x : Sched n k (Option (Fin n)) (Links fuel n)}

theorem arecSched_mirrors {a : Fin n} (h : Coherent x.q lists) (hfuel : n ≤ fuel) :
    Option.Rel SchedMirrors (arecSched elapsed x a) (arecSched elapsed (x.mirror lists) a) :=
  rel_mirrorsWith (updateArecAdd_mirrors h hfuel) (fun _ lists' _ h' => .some ⟨⟨lists', h', rfl⟩, rfl, rfl⟩)

theorem sinstSched_mirrors {s : Fin n} (h : Coherent x.q lists) :
    Option.Rel SchedMirrors (sinstSched elapsed x s) (sinstSched elapsed (x.mirror lists) s) :=
  rel_mirrorsWith (updateSinst_mirrors h nofun nofun) (fun _ lists' _ h' => .some ⟨⟨lists', h', rfl⟩, rfl, rfl⟩)

theorem queryMonitors_mirrors (cs : List (Fin k)) (h : Coherent x.q lists) :
    Option.Rel (fun x y => SchedMirrors x.1 y.1 ∧ x.2 = y.2) (queryMonitors elapsed cs x)
      (queryMonitors elapsed cs (x.mirror lists)) := by
  induction cs generalizing x lists with
  | nil => exact .some ⟨⟨⟨lists, h, rfl⟩, rfl, rfl⟩, rfl⟩
  | cons c cs ih =>
    have hsmon : ∀ (tx : Message) (mon : ServiceMonitor n), Coherent (Querier.setSmon { x.q with tx } c mon) lists :=
      fun tx mon => h.frame rfl (fun _ => rfl) (fun _ => rfl) (List.Subset.refl _)
    have hrest : ∀ {z : Sched n k (Option (Fin n)) (Links fuel n)}, Coherent z.q lists →
        Option.Rel (fun x y => SchedMirrors x.1 y.1 ∧ x.2 = y.2)
          (runAll (sinstSched elapsed) (z.q.smons c).sinsts z >>= queryMonitors elapsed cs)
          (runAll (sinstSched elapsed) (z.q.smons c).sinsts (z.mirror lists) >>= queryMonitors elapsed cs) := by
      intro z h'
      refine rel_bind (rel_runAll (R := SchedMirrors) ?_ ⟨⟨lists, h', rfl⟩, rfl, rfl⟩) ?_
      · intro y z s _ hyz
        obtain ⟨lists', h'', rfl⟩ := hyz.exists_mirror
        exact sinstSched_mirrors h''
      · intro y z hyz
        obtain ⟨lists', h'', rfl⟩ := hyz.exists_mirror
        exact ih h''
    unfold queryMonitors refreshMonitor
    have hmon : (x.mirror lists).q.smons c = x.q.smons c := rfl
    have htx : (x.mirror lists).q.tx = x.q.tx := rfl
    rw [hmon, htx]
    by_cases hdue : (x.q.smons c).nextRefresh ≤ elapsed
    · simp only [if_pos hdue]
      cases mdnsAddQuestion x.q.tx (x.q.smons c).fqst tAny cIn with
      | none => exact .some ⟨⟨⟨lists, hsmon x.q.tx _, rfl⟩, rfl, rfl⟩, rfl⟩
      | some tx => exact hrest (z := ⟨Querier.setSmon { x.q with tx } c _, _, _⟩) (hsmon tx _)
    · simp only [if_neg hdue]
      exact hrest (z := ⟨Querier.setSmon x.q c _, _, _⟩) (hsmon x.q.tx _)

theorem answerMonitor_mirrors {y : Sched n k} (h : SchedMirrors x y) :
    SchedMirrors (answerMonitor x c) (answerMonitor y c) := by
  obtain ⟨lists, hq, rfl⟩ := h.exists_mirror
  unfold answerMonitor
  have hmon : (x.mirror lists).q.smons c = x.q.smons c := rfl
  rw [hmon]
  by_cases hdue : (x.q.smons c).nextRefresh = 0
  · simp only [if_pos hdue]
    exact ⟨⟨lists, hq.frame rfl (fun _ => rfl) (fun _ => rfl) (List.Subset.refl _), rfl⟩, rfl, rfl⟩
  · simp only [if_neg hdue]
    exact h

end sched

theorem prepareQuery_mirrors (h : Coherent L lists) (hfuel : n ≤ fuel) :
    Option.Rel SchedMirrors (prepareQuery elapsed L) (prepareQuery elapsed (L.mirror lists)) := by
  have hinit : Coherent { L with tx := mdnsQueryInit L.tx } lists :=
    h.frame rfl (fun _ => rfl) (fun _ => rfl) (List.Subset.refl _)
  refine rel_bind (rel_runAll (R := SchedMirrors) (l := L.arecsActive) ?_
    (s := ⟨{ L with tx := mdnsQueryInit L.tx }, 0, uint32Max⟩) ⟨⟨lists, hinit, rfl⟩, rfl, rfl⟩) ?_
  · intro x y a _ hxy
    obtain ⟨lists', h', rfl⟩ := hxy.exists_mirror
    exact arecSched_mirrors h' hfuel
  · intro x y hxy
    obtain ⟨lists₁, h₁, rfl⟩ := hxy.exists_mirror
    refine rel_bind (queryMonitors_mirrors x.q.smonsActive h₁) ?_
    rintro ⟨x₂, all⟩ ⟨y₂, all'⟩ ⟨hxy₂, hall⟩
    obtain rfl : all = all' := hall
    obtain ⟨lists₂, h₂, rfl⟩ := SchedMirrors.exists_mirror hxy₂
    refine rel_ite (fun _ => rel_ite (fun _ => .some hxy₂) (fun _ => .some ?_)) (fun _ => .some ⟨hxy₂.q, rfl, rfl⟩)
    have hfold : SchedMirrors (x₂.q.smonsActive.foldl answerMonitor x₂)
      (x₂.q.smonsActive.foldl answerMonitor (x₂.mirror lists₂)) :=
      foldl_rel hxy₂ (fun c _ x y hxy => answerMonitor_mirrors hxy)
    refine ⟨hfold.q, ?_, hfold.next⟩
    show (if (x₂.q.smonsActive.foldl answerMonitor x₂).ret > 0 then (1 : Int) else 0) = if Sched.ret _ > 0 then 1 else 0
    rw [hfold.ret]
    rfl

theorem addService_mirrors (h : Coherent L lists) :
    Option.Rel Mirrors (addService walk L fqst) (addService walk (L.mirror lists) fqst) := by
  refine rel_bind_same (z := findServiceMonitor walk L (.plain fqst) (some 0)) (fun found _ => ?_)
  cases found with
  | some _ => exact .some ⟨lists, h, rfl⟩
  | none =>
    have hfree : (L.mirror lists).smonsFree = L.smonsFree := rfl
    simp only [hfree]
    cases L.smonsFree with
    | nil => exact .some ⟨lists, h, rfl⟩
    | cons c free => exact .some ⟨lists, h.frame rfl (fun _ => rfl) (fun _ => rfl) (List.Subset.refl _), rfl⟩

theorem closeMonitor_mirrors (h : Coherent L lists) :
    Option.Rel Mirrors (closeMonitor L c) (closeMonitor (L.mirror lists) c) := by
  refine rel_bind_same (z := slistRemove c L.smonsActive) (fun active _ => rel_mirrors ?_
    (fun _ lists' h' => .some ⟨lists', h'.frame rfl (fun _ => rfl) (fun _ => rfl) (List.Subset.refl _), rfl⟩))
  refine rel_runAll (l := (L.smons c).sinsts) ?_
    ⟨lists, h.frame (M := { L with smonsActive := active }) rfl (fun _ => rfl) (fun _ => rfl)
      (List.Subset.refl _), rfl⟩
  rintro L' q' s - ⟨lists', h', rfl⟩
  exact cleanupSinst_mirrors h'

theorem closeMonitors_mirrors (cs : List (Fin k)) (h : Coherent L lists) :
    Option.Rel Mirrors (runAll closeMonitor cs L) (runAll closeMonitor cs (L.mirror lists)) := by
  refine rel_runAll ?_ ⟨lists, h, rfl⟩
  rintro L' q' c - ⟨lists', h', rfl⟩
  exact closeMonitor_mirrors h'

theorem removeService_mirrors (h : Coherent L lists) :
    Option.Rel Mirrors (removeService walk L fqst) (removeService walk (L.mirror lists) fqst) := by
  refine rel_ite (fun _ => closeMonitors_mirrors _ h)
    (fun _ => rel_bind_same (z := findServiceMonitor walk L (.plain fqst) (some 0)) (fun found _ => ?_))
  cases found with
  | none => exact .some ⟨lists, h, rfl⟩
  | some c => exact closeMonitor_mirrors h

end calls

section runs
variable {L L' : Threaded fuel n k} {lists : Fin n → List (Fin n)} {walk : Nat}

theorem guardedStep_mirrors (walk : Nat) (ev : Event) (h : Coherent L lists) (hs : (L.mirror lists).Sound False) (hfuel : n ≤ fuel) :
    Option.Rel Mirrors (guardedStep fitting walk L ev) (guardedStep fitting walk (L.mirror lists) ev) := by
  cases ev with
  | monitor fqst => exact addService_mirrors h
  | unmonitor fqst => exact removeService_mirrors h
  | prepare elapsed => exact rel_map (prepareQuery_mirrors h hfuel) (fun _ _ hxy => hxy.q)
  | response data mlen elapsed =>
    unfold guardedStep
    dsimp only
    split
    · exact guardedCache_mirrors h hs hfuel
    · exact .some ⟨lists, h, rfl⟩
    · exact .none

/-- A run over the links in which no SRV record takes an A record away is a run over lists of their own. -/
theorem Run.mirror (hfuel : n ≤ fuel) (h : Run fitting L) :
    ∃ lists, Coherent L lists ∧ Run fitting (L.mirror lists) := by
  induction h with
  | launch =>
    refine ⟨fun _ => [], ⟨fun _ => rfl, fun _ => nodup_nil, fun _ _ hs => ?_, fun _ _ hs => ?_⟩, .launch⟩
    all_goals cases hs
  | @step walk _ _ ev _ hstep ih =>
    obtain ⟨lists, hc, hrun⟩ := ih
    have hmirrors := guardedStep_mirrors walk ev hc (hrun.sound fitting_hosts) hfuel
    rw [hstep] at hmirrors
    obtain ⟨q', hq', lists', hc', rfl⟩ := rel_some_left hmirrors
    exact ⟨lists', hc', .step hrun hq'⟩

theorem Coherent.removed {lists' : Fin n → List (Fin n)} {c : Fin k}
    (h : Removed (L.mirror lists) c (L'.mirror lists')) :
    Removed L c L' := by
  refine ⟨⟨h.slots, h.emptied, h.others, h.instances, fun a => ?_, h.log⟩, h.active, h.free⟩
  have harec : ARec.mk (lists' a) _ _ _ _ _ _ = ARec.mk _ _ _ _ _ _ _ := h.arecs a
  rw [ARec.mk.injEq] at harec
  obtain ⟨-, hip, httl, hfqdn, hstate, hnext, hpercent⟩ := harec
  cases ha : L'.arecs a
  rw [ha] at hip httl hfqdn hstate hnext hpercent
  rw [ARec.mk.injEq]
  exact ⟨rfl, hip, httl, hfqdn, hstate, hnext, hpercent⟩

theorem Coherent.orderly (h : Coherent L lists) (hq : (L.mirror lists).Orderly) : L.Orderly where
  slots := hq.slots
  distinct := hq.distinct
  close c hc := by
    obtain ⟨q', hq', hr⟩ := hq.close c hc
    have hmirrors := closeMonitor_mirrors (c := c) h
    rw [hq'] at hmirrors
    obtain ⟨L', hL', lists', h', rfl⟩ := rel_some_right hmirrors
    exact ⟨L', hL', Coherent.removed hr⟩
  closeAll := by
    obtain ⟨q', hq', hall⟩ := hq.closeAll
    have hmirrors := closeMonitors_mirrors (L.mirror lists).smonsActive h
    rw [hq'] at hmirrors
    obtain ⟨L', hL', lists', h', rfl⟩ := rel_some_right hmirrors
    exact ⟨L', hL', hall⟩

theorem Run.orderly (hfuel : n ≤ fuel) (h : Run fitting L) : L.Orderly := by
  obtain ⟨lists, hc, hrun⟩ := h.mirror hfuel
  exact hc.orderly (hrun.held.orderly hrun.distinct)

theorem TypedRun.typed (hfuel : n ≤ fuel) (h : TypedRun fitting L) : L.Typed := by
  induction h with
  | launch => exact nofun
  | @step walk _ _ ev hrun hev hstep ih =>
    obtain ⟨lists, hc, hlisted⟩ := hrun.run.mirror hfuel
    have hmirrors := guardedStep_mirrors walk ev hc (hlisted.sound fitting_hosts) hfuel
    rw [hstep] at hmirrors
    obtain ⟨q', hq', lists', -, rfl⟩ := rel_some_left hmirrors
    exact typed_of_guardedStep (q := Querier.mirror _ lists) hlisted.held ih hev hq'

/-- The table of monitors is in order as long as the SRV records take no A record away. -/
theorem TypedRun.monitorTable (hfuel : n ≤ fuel) (h : TypedRun fitting L) : L.MonitorTable :=
  (h.run.orderly hfuel).table (h.typed hfuel)

set_option maxRecDepth 100000 in
/-- Two monitors, of which one has got an instance. -/
theorem monitorTable_announced : ∃ L : Threaded 16 16 4, TypedRun fitting L ∧ L.smonsActive = [2, 3] ∧
    (L.smons 3).sinsts = [15] ∧ L.MonitorTable := by
  have h : ((runAll (guardedStep fitting 60) [.monitor httpType, .monitor [1, 97, 0], announce 65 1]
      (queryLaunch 16 4 (Option (Fin 16)) (Links 16 16))).map (fun L => (L.smonsActive, (L.smons 3).sinsts))) =
      some ([2, 3], [15]) := by decide +kernel
  obtain ⟨L, hL, h⟩ := map_eq_some_iff.mp h
  obtain ⟨hactive, hsinsts⟩ := Prod.mk.inj h
  have hname : WfName [1, 97, 0] :=
    expands_of_decodeName (show decodeName (.plain [1, 97, 0]) 10 0 = some _ by decide +kernel)
  have hrun : TypedRun fitting L := TypedRun.launch.runAll (by
    rintro ev hev
    simp only [mem_cons, not_mem_nil, or_false] at hev
    rcases hev with rfl | rfl | rfl
    · exact wfName_httpType
    · exact hname
    · exact trivial) hL
  exact ⟨L, hrun, hactive, hsinsts, hrun.monitorTable (Nat.le_refl 16)⟩

/-- The instance `b` at the host `P`; then `a` at all others, at `P`, at one for which there is no A
record, and at the first. Records are taken from the last to the first. -/
def crowding : List Event :=
  [.monitor httpType, receive [wireRecord httpType tPtr 120 [1, 98, 0xC0, 12], httpSrv 80],
    receive (httpPtr 120 :: [65, 90, 80, 79, 78, 77, 76, 75, 74, 73, 72, 71, 70, 69, 68, 67, 66, 65].map httpSrv)]

set_option maxRecDepth 100000 in
/-- The link of `a` is overwritten while it is on the list of `P`, and `b` is not found there when the
monitor is removed. -/
theorem monitorTable_fails : ∃ L : Threaded 16 16 4, TypedRun {} L ∧ L.smonsActive = [3] ∧ closeMonitor L 3 = none ∧
    ¬ L.MonitorTable := by
  have h : ((runAll (guardedStep {} 60) crowding (queryLaunch 16 4 (Option (Fin 16)) (Links 16 16))).map
      (fun L => (L.smonsActive, (L.smons 3).fqst, (closeMonitor L 3).isNone))) =
        some ([3], httpType, true) := by decide +kernel
  obtain ⟨L, hL, h⟩ := map_eq_some_iff.mp h
  obtain ⟨hactive, h⟩ := Prod.mk.inj h
  obtain ⟨hname, hnone⟩ := Prod.mk.inj h
  have hclose := isNone_iff_eq_none.mp hnone
  have hrun : TypedRun {} L := TypedRun.launch.runAll (by
    rintro ev hev
    simp only [crowding, mem_cons, not_mem_nil, or_false] at hev
    rcases hev with rfl | rfl | rfl
    · exact wfName_httpType
    · exact trivial
    · exact trivial) hL
  refine ⟨L, hrun, hactive, hclose, fun htable => ?_⟩
  obtain ⟨L', hremove, -⟩ := htable.remove httpType wfName_httpType (by decide +kernel)
  have htyped : L.Typed := by
    intro c hc
    rw [hactive] at hc
    rw [mem_singleton.mp hc, hname]
    exact wfName_httpType
  have hmon : L.monitorOf (plainLabels httpType) = some 3 := by
    rw [Querier.monitorOf, hactive, find?_cons_of_pos (by rw [hname]; simp)]
  have hfind := find_comes htyped wfName_httpType
  rw [hmon] at hfind
  have hgone : Comes (fun walk => removeService walk L httpType) none := by
    unfold removeService
    simp only [show byte httpType 0 ≠ 0 by decide, if_false]
    refine comes_bind_some hfind ?_
    simp only [hclose]
    exact comes_const _
  cases hgone.unique hremove

end runs

end Mdns
