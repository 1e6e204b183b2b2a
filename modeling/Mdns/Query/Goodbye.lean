import Mdns.Query.Farewell

/-!
# Goodbyes

A response whose records all have a TTL of 0. Two things are not written for goodbyes: a PTR record
for an instance that is not in the cache puts it there, and a TXT record is an update like any
other.
-/
namespace Mdns
open Lib List Option

variable {n k : Nat} {q q₁ q' : Querier n k} {s : Fin n} {c : Fin k} {fuel elapsed : Nat} {m : Message}
  {r ptr : Resource}

section txt

def TxtNews (i : ServiceInstance n k) (p : Mem) (r : Resource) : Prop :=
  i.keyvals = none ∨ (r.rdlength ≠ i.rawkvlen ∧ r.rdlength < maxKeyvalLen + 1) ∨
    slice p r.rdata (min r.rdlength i.rawkvlen) ≠ i.rawkeyvals.take (min r.rdlength i.rawkvlen)

theorem updateTxt_news {i j : ServiceInstance n k} {p : Mem} {ret : Int} (h : updateTxt fuel i p r = some (j, ret)) :
    (ret = 1 ∧ TxtNews i p r) ∨ (ret = 0 ∧ j = i ∧ ¬ TxtNews i p r) := by
  unfold updateTxt at h
  dsimp only at h
  split at h
  · next hnews =>
    simp only [bind_eq_bind, bind_eq_some_iff, Option.pure_def, some.injEq, Prod.mk.injEq] at h
    obtain ⟨text, -, -, rfl⟩ := h
    exact .inl ⟨rfl, hnews⟩
  · next hsame =>
    cases h
    exact .inr ⟨rfl, rfl, hsame⟩

theorem RecKey.unique {x y : Fin k × Labels} (hd : q.Distinct) (h : RecKey q m r x) (h' : RecKey q m r y) : x = y := by
  obtain ⟨fuel, off, hnext, hhas⟩ := h.type
  obtain ⟨fuel', off', hnext', hhas'⟩ := h'.type
  cases dnameLabelNext_unique hnext hnext'
  exact Prod.ext (hhas.unique hd hhas' h.active h'.active) (h.name.unique h'.name)

inductive ByeTxt (m : Message) (q : Querier n k) (r : Resource) : Querier n k → Prop where
  | nothing : (∀ s x, s ∉ q.sinstsFree → q.key s = some x → RecKey q m r x → ¬ TxtNews (q.sinsts s) m.data r) →
      ByeTxt m q r q
  | silent {s : Fin n} {i : ServiceInstance n k} : (q.sinsts s).isReady = false → SamePlace i (q.sinsts s) →
      i.isReady = false → (i.state = .init ↔ (q.sinsts s).state = .init) →
      (∀ t x, t ∉ q.sinstsFree → q.key t = some x → RecKey q m r x → t = s) → ByeTxt m q r (q.setSinst s i)
  | told {s : Fin n} {x : Fin k × Labels} {e : Report n} {q' : Querier n k} : s ∉ q.sinstsFree → q.key s = some x →
      RecKey q m r x → (q.sinsts s).isReady = true → TxtNews (q.sinsts s) m.data r → e.status ≠ .disappeared →
      q'.log = e :: q.log → ByeTxt m q r q'

theorem byeTxt_of_txtStep (ht : q.Tidy) (h : txtStep fuel elapsed m q r = some q') : ByeTxt m q r q' := by
  rcases txtStep_eq_some h with ⟨hnone, rfl⟩ | ⟨s, ret, hinst, hu⟩
  · refine .nothing ?_
    intro s x hs hkey hrec
    cases (sinstOf_back ht hnone s).mpr ⟨hs, x, hkey, hrec⟩
  · obtain ⟨hs, x, hkey, hrec⟩ := (sinstOf_back ht hinst s).mp rfl
    have honly : ∀ t y, t ∉ q.sinstsFree → q.key t = some y → RecKey q m r y → t = s := by
      intro t y hused hy hrec'
      rw [hrec'.unique ht.distinct hrec] at hy
      exact ht.apart.key_inj hused hs hy hkey
    obtain ⟨q₁, changes, hchanges, hreacts⟩ := updateSinst_eq_some hu
    obtain ⟨i, changes', htxt, hset⟩ := bind_pair_eq_some.mp hchanges
    cases hset
    have hplace := updateTxt_samePlace htxt
    have hrest : i.isReady = (q.sinsts s).isReady ∧ i.state = (q.sinsts s).state := by
      rcases updateTxt_eq_some htxt with ⟨rfl, -⟩ | ⟨_, _, _, rfl, -⟩
      · exact ⟨rfl, rfl⟩
      · exact ⟨rfl, rfl⟩
    have hself := setSinst_self q s i
    have hnews := updateTxt_news htxt
    cases hreacts with
    | quiet hquiet =>
      rw [hself] at hquiet
      rcases hnews with ⟨rfl, -⟩ | ⟨-, rfl, hsame⟩
      · -- something new for an instance that is not ready
        rcases hquiet with hzero | ⟨-, hneg⟩ | ⟨-, hready, -⟩
        · cases hzero
        · exact absurd hneg (by decide)
        · exact .silent (hrest.1 ▸ hready) hplace hready (by rw [hrest.2]) honly
      · have hid : q.setSinst s (q.sinsts s) = q := by
          unfold Querier.setSinst
          rw [Function.update_eq_self]
        rw [hid]
        refine .nothing ?_
        intro t y hused hy hrec'
        rw [honly t y hused hy hrec']
        exact hsame
    | pending hst _ hready =>
      rw [hself] at hst hready
      have hset : (q.setSinst s i).setState s .updating = q.setSinst s { i with state := .updating } := by
        unfold Querier.setState
        rw [setSinst_setSinst, hself]
      rw [hset]
      refine .silent (hrest.1 ▸ hready) ⟨hplace.smon, hplace.arec, hplace.fqsn⟩ hready ?_ honly
      rw [← hrest.2, hst]
      exact ⟨nofun, nofun⟩
    | gone _ hneg _ =>
      rcases hnews with ⟨rfl, -⟩ | ⟨rfl, -, -⟩ <;> cases hneg
    | discovered _ hpos hready hcb =>
      rw [hself] at hready
      rcases hnews with ⟨-, hnews⟩ | ⟨rfl, -, -⟩
      · obtain ⟨d, -, rfl⟩ := callbackOn_eq_some.mp hcb
        exact .told hs hkey hrec (hrest.1 ▸ hready) hnews (by simp) rfl
      · exact absurd hpos (by decide)
    | updated _ hne _ hready hcb =>
      rw [hself] at hready
      rcases hnews with ⟨-, hnews⟩ | ⟨rfl, -, -⟩
      · obtain ⟨d, -, rfl⟩ := callbackOn_eq_some.mp hcb
        exact .told hs hkey hrec (hrest.1 ▸ hready) hnews (by simp) rfl
      · exact absurd rfl hne

theorem ByeTxt.log (h : ByeTxt m q r q') : ∃ new, q'.log = new ++ q.log := by
  cases h with
  | nothing _ => exact ⟨[], rfl⟩
  | silent _ _ _ _ _ => exact ⟨[], rfl⟩
  | @told _ _ e _ _ _ _ _ _ _ hlog => exact ⟨[e], hlog⟩

variable {rs : List Resource}

theorem log_of_steps (h : Steps (ByeTxt m) rs q q') : ∃ new, q'.log = new ++ q.log := by
  induction h with
  | nil _ => exact ⟨[], rfl⟩
  | cons hfirst _ ih =>
    obtain ⟨new, hlog⟩ := hfirst.log
    obtain ⟨new', hlog'⟩ := ih
    exact ⟨new' ++ new, by rw [hlog', hlog, append_assoc]⟩

theorem setSinst_types (q : Querier n k) (s : Fin n) (i : ServiceInstance n k) : SameTypes q (q.setSinst s i) :=
  ⟨rfl, fun _ => rfl⟩

theorem SamePlace.key {i : ServiceInstance n k} (h : SamePlace i (q.sinsts s)) (t : Fin n) :
    (q.setSinst s i).key t = q.key t := by
  unfold Querier.key
  by_cases hts : t = s
  · rw [hts, setSinst_self, h.smon, h.fqsn]
  · rw [setSinst_others q s i hts]

theorem news_of_steps (h : Steps (ByeTxt m) rs q q') {x : Fin k × Labels} (hs : s ∉ q.sinstsFree)
    (hkey : q.key s = some x)
    (hready : (q.sinsts s).isReady = true) (hr : r ∈ rs) (hrec : RecKey q m r x)
    (hnews : TxtNews (q.sinsts s) m.data r) :
    ∃ new e, q'.log = new ++ q.log ∧ e ∈ new ∧ e.status ≠ .disappeared := by
  induction h with
  | nil _ => cases hr
  | @cons r' rs' q q₁ q' hfirst hmore ih =>
    cases hfirst with
    | nothing hnot =>
      rcases mem_cons.mp hr with rfl | hr
      · exact absurd hnews (hnot s x hs hkey hrec)
      · exact ih hs hkey hready hr hrec hnews
    | @silent s' i hnot hplace _ _ honly =>
      have hne : s ≠ s' := by
        rintro rfl
        rw [hnot] at hready
        cases hready
      rcases mem_cons.mp hr with rfl | hr
      · exact absurd (honly s x hs hkey hrec) hne
      · have hentry := setSinst_others q s' i hne
        exact ih hs ((hplace.key s).trans hkey) (hentry ▸ hready) hr ((setSinst_types q s' i).recKey.mpr hrec)
          (hentry ▸ hnews)
    | @told _ _ e _ _ _ _ _ _ hstatus hlog =>
      obtain ⟨new, hlog'⟩ := log_of_steps hmore
      refine ⟨new ++ [e], e, ?_, mem_append_right new (mem_singleton.mpr rfl), hstatus⟩
      rw [hlog', hlog, append_assoc]
      rfl

structure TxtQuiet (q q' : Querier n k) : Prop where
  types : SameTypes q q'
  free : q'.sinstsFree = q.sinstsFree
  places : ∀ s, SamePlace (q'.sinsts s) (q.sinsts s)
  init : ∀ s, (q'.sinsts s).state = .init ↔ (q.sinsts s).state = .init
  log : q'.log = q.log

theorem TxtQuiet.key (h : TxtQuiet q q') (s : Fin n) : q'.key s = q.key s := by
  unfold Querier.key
  rw [(h.places s).smon, (h.places s).fqsn]

theorem TxtQuiet.farewells (h : TxtQuiet q q') : Farewells q q' := by
  refine farewells_of_silent h.log ?_ (fun s _ => (h.places s).fqsn)
  intro s
  unfold Querier.Shows
  rw [h.free, ne_eq, h.init s]

theorem quiet_of_steps (h : Steps (ByeTxt m) rs q q')
    (hnot : ∀ r ∈ rs, ∀ s x, s ∉ q.sinstsFree → q.key s = some x → RecKey q m r x → (q.sinsts s).isReady = true →
      ¬ TxtNews (q.sinsts s) m.data r) : TxtQuiet q q' := by
  induction h with
  | nil q => exact ⟨.refl q, rfl, fun _ => ⟨rfl, rfl, rfl⟩, fun _ => Iff.rfl, rfl⟩
  | @cons r rs q q₁ q' hfirst _ ih =>
    obtain ⟨hhere, hthere⟩ := forall_mem_cons.mp hnot
    cases hfirst with
    | nothing _ => exact ih hthere
    | @silent s i hnotReady hplace hready hinit _ =>
      have hrest := ih (by
        intro r' hr' t x hused hx hrec
        by_cases hts : t = s
        · rw [hts, setSinst_self, hready]
          exact nofun
        · rw [setSinst_others q s i hts]
          exact hthere r' hr' t x hused ((hplace.key t).symm.trans hx) ((setSinst_types q s i).recKey.mp hrec))
      refine ⟨(setSinst_types q s i).trans hrest.types, hrest.free, ?_, ?_, hrest.log⟩
      · intro t
        have ht := hrest.places t
        by_cases hts : t = s
        · rw [hts, setSinst_self] at ht
          rw [hts]
          exact ⟨ht.smon.trans hplace.smon, ht.arec.trans hplace.arec, ht.fqsn.trans hplace.fqsn⟩
        · rwa [setSinst_others q s i hts] at ht
      · intro t
        have ht := hrest.init t
        by_cases hts : t = s
        · rw [hts, setSinst_self] at ht
          rw [hts]
          exact ht.trans hinit
        · rwa [setSinst_others q s i hts] at ht
    | told hs hkey hrec hready hnews _ _ => exact absurd hnews (hhere _ _ hs hkey hrec hready)

end txt

section srv
variable {rs : List Resource}

/-- Some slots are taken out of the cache, and the others are left alone. -/
structure Culled (gone : Fin n → Prop) (q q' : Querier n k) : Prop where
  types : SameTypes q q'
  used : ∀ s, s ∉ q'.sinstsFree ↔ s ∉ q.sinstsFree ∧ ¬ gone s
  entries : ∀ s, s ∉ q'.sinstsFree → q'.sinsts s = q.sinsts s
  farewells : Farewells q q'

theorem Dies.culled (h : Dies q s q') : Culled (· = s) q q' where
  types := h.types
  used t := by
    rw [h.free, mem_cons, not_or]
    exact and_comm
  entries t ht := by
    rw [h.free, mem_cons, not_or] at ht
    exact h.others t ht.1
  farewells := h.farewells

theorem Culled.trans {gone gone' : Fin n → Prop} (h : Culled gone q q₁) (h' : Culled gone' q₁ q') :
    Culled (fun s => gone s ∨ gone' s) q q' where
  types := h.types.trans h'.types
  used s := by
    rw [h'.used, h.used, not_or]
    exact and_assoc
  entries s hs := (h'.entries s hs).trans (h.entries s ((h'.used s).mp hs).1)
  farewells := h.farewells.trans h'.farewells

theorem Culled.congr {gone gone' : Fin n → Prop} (h : Culled gone q q')
    (hg : ∀ s, s ∉ q.sinstsFree → (gone s ↔ gone' s)) :
    Culled gone' q q' :=
  ⟨h.types, fun s => (h.used s).trans (and_congr_right (fun hs => not_congr (hg s hs))), h.entries, h.farewells⟩

theorem Culled.none (q : Querier n k) : Culled (fun _ => False) q q :=
  ⟨.refl q, fun _ => (and_iff_left not_false).symm, fun _ _ => rfl, .refl q⟩

def Addressed (q : Querier n k) (m : Message) (rs : List Resource) (s : Fin n) : Prop :=
  ∃ r ∈ rs, ∃ x, q.key s = some x ∧ RecKey q m r x

theorem Culled.addressed {gone : Fin n → Prop} (h : Culled gone q q') (hs : s ∉ q'.sinstsFree) :
    Addressed q' m rs s ↔ Addressed q m rs s := by
  unfold Addressed Querier.key
  rw [h.entries s hs]
  simp only [h.types.recKey]

theorem srvStep_culled (ht : q.Tidy) (httl : r.ttl = 0) (h : srvStep fuel elapsed m q r = some q') :
    Culled (Addressed q m [r]) q q' := by
  have hone : ∀ t, Addressed q m [r] t ↔ ∃ x, q.key t = some x ∧ RecKey q m r x := by
    intro t
    unfold Addressed
    simp only [mem_singleton, exists_eq_left]
  rcases srvStep_eq_some h with ⟨hnone, rfl⟩ | ⟨s, ret, hinst, hu⟩
  · refine (Culled.none q').congr ?_
    intro t hused
    rw [hone t, false_iff]
    intro hex
    cases (sinstOf_back ht hnone t).mpr ⟨hused, hex⟩
  · have hdies : Dies q s q' := by
      obtain ⟨q₁, changes, hchanges, hreacts⟩ := updateSinst_eq_some hu
      rcases updateSrv_eq_some hchanges with ⟨-, hclean, rfl⟩ | htakes
      · apply dies_of_cleanup ht.held hclean
        cases hreacts with
        | quiet hquiet =>
          rcases hquiet with hzero | ⟨hst, -⟩ | ⟨hne, -⟩
          · cases hzero
          · exact .inl ⟨hst, rfl⟩
          · exact absurd rfl hne
        | pending _ hne _ => exact absurd rfl hne
        | gone hst _ hcb => exact .inr ⟨hst, hcb⟩
        | discovered _ hpos _ _ => exact absurd hpos (by decide)
        | updated _ _ hne _ _ => exact absurd rfl hne
      · exact absurd httl htakes.ttl
    refine hdies.culled.congr ?_
    intro t hused
    rw [hone t]
    constructor
    · rintro rfl
      exact ((sinstOf_back ht hinst t).mp rfl).2
    · intro hex
      exact (some.inj ((sinstOf_back ht hinst t).mpr ⟨hused, hex⟩)).symm

theorem srvs_culled (ht : q.Tidy) (httl : ∀ r ∈ rs, r.ttl = 0) (h : runAll (srvStep fuel elapsed m) rs q = some q') :
    Culled (Addressed q m rs) q q' ∧ q'.Tidy := by
  induction rs generalizing q with
  | nil =>
    cases h
    refine ⟨(Culled.none _).congr ?_, ht⟩
    rintro t -
    exact ⟨False.elim, fun ⟨r, hr, _⟩ => by cases hr⟩
  | cons r rs ih =>
    obtain ⟨q₁, hstep, hmore⟩ := runAll_cons_eq_some.mp h
    obtain ⟨hfirst, hrest⟩ := forall_mem_cons.mp httl
    have hc := srvStep_culled ht hfirst hstep
    have htidy : q₁.Tidy := Effects.tidy (srvStep_effects hstep) ht
    obtain ⟨hc', ht'⟩ := ih htidy hrest hmore
    refine ⟨(hc.trans hc').congr ?_, ht'⟩
    intro t hused
    have hsplit : Addressed q m (r :: rs) t ↔ Addressed q m [r] t ∨ Addressed q m rs t := by
      unfold Addressed
      simp only [exists_mem_cons_iff, not_mem_nil, false_and, exists_false, or_false]
    rw [hsplit]
    -- a slot that is gone already need not be looked for again
    by_cases hgone : Addressed q m [r] t
    · exact ⟨fun _ => .inl hgone, fun _ => .inl hgone⟩
    · rw [hc.addressed ((hc.used t).mpr ⟨hused, hgone⟩)]

end srv

section address
variable {a : Fin n} {rs : List Resource}

theorem alertLost_dies (hq : q.Held) (h : alertSinst .lostArec q s = some q') :
    Dies q s q' ∧ (∀ t, (q'.sinsts t).arec = (q.sinsts t).arec) ∧
      ∀ a, (q'.arecs a).sinsts =
        if (q.sinsts s).arec = some a then (q.arecs a).sinsts.erase s else (q.arecs a).sinsts := by
  obtain ⟨q₂, changes, hchanges, hreacts⟩ := alertSinst_eq_some h
  cases hchanges
  obtain ⟨q₃, hclean, hend⟩ : ∃ q₃, cleanupSinst q s = some q₃ ∧
      ((q₃.sinsts s).state = .init ∧ q' = q₃ ∨ (q₃.sinsts s).state ≠ .init ∧
        callbackOn q₃ s .disappeared = some q') := by
    cases hreacts with
    | lost hst hclean =>
      refine ⟨_, hclean, .inl ⟨?_, rfl⟩⟩
      rw [(cleaned_of_cleanupSinst hclean).entry]
      exact hst
    | lostShown hst hclean hcb =>
      refine ⟨_, hclean, .inr ⟨?_, hcb⟩⟩
      rw [(cleaned_of_cleanupSinst hclean).entry]
      exact hst
  have hcl := cleaned_of_cleanupSinst hclean
  have hsame : q'.sinsts = q₃.sinsts ∧ q'.arecs = q₃.arecs := by
    rcases hend with ⟨-, rfl⟩ | ⟨-, hcb⟩
    · exact ⟨rfl, rfl⟩
    · obtain ⟨c, -, rfl⟩ := callbackOn_eq_some.mp hcb
      exact ⟨rfl, rfl⟩
  refine ⟨dies_of_cleanup hq hclean hend, ?_, ?_⟩
  · intro t
    show (q'.sinsts t).arec = _
    rw [hsame.1, hcl.sinsts]
    exact congrFun (field_update_same (g := ServiceInstance.arec) (f := q.sinsts) (a := s)
      (b := { q.sinsts s with nextRefresh := uint32Max }) rfl) t
  · intro a
    show (q'.arecs a).sinsts = _
    rw [hsame.2]
    have hlists := congrFun (congrArg Registry.referrers hcl.reg) a
    exact hlists.trans (unlink_apply q.reg.host q.reg.referrers s a)

theorem evictArec_hosted (hq : q.Held) (h : evictArec q a = some q') (hs : s ∈ (q.arecs a).sinsts) :
    (q.sinsts s).arec = some a := by
  rw [evictArec_eq] at h
  simp only [bind_eq_bind, bind_eq_some_iff] at h
  obtain ⟨q₁, h₁, h⟩ := h
  by_contra hne
  -- one that does not is not taken off
  have hstays : q₁.Held ∧ s ∈ (q₁.arecs a).sinsts ∧ (q₁.sinsts s).arec ≠ some a := by
    refine runAll_keeps (I := fun q : Querier n k => q.Held ∧ s ∈ (q.arecs a).sinsts ∧ (q.sinsts s).arec ≠ some a) ?_ h₁
      ⟨hq, hs, hne⟩
    rintro q t q' hstep ⟨hq, hs, hne⟩
    obtain ⟨-, harecs, hlists⟩ := alertLost_dies hq hstep
    refine ⟨Effects.held (alertLost_effects hstep) hq, ?_, by rwa [harecs s]⟩
    rw [hlists a]
    split
    · next hta =>
      refine (mem_erase_of_ne ?_).mpr hs
      rintro rfl
      exact hne hta
    · exact hs
  split at h
  · next hnil =>
    rw [hnil] at hstays
    cases hstays.2.1
  · cases h

/-- What the A records do: they take out some slots, but none without an A record. -/
structure Spares (q q' : Querier n k) : Prop where
  back : ∀ s, s ∉ q'.sinstsFree → s ∉ q.sinstsFree ∧ q'.sinsts s = q.sinsts s
  homeless : ∀ s, s ∉ q.sinstsFree → (q.sinsts s).arec = none → s ∉ q'.sinstsFree
  farewells : Farewells q q'

theorem Spares.refl (q : Querier n k) : Spares q q := ⟨fun _ hs => ⟨hs, rfl⟩, fun _ hs _ => hs, .refl q⟩

theorem Spares.trans (h : Spares q q₁) (h' : Spares q₁ q') : Spares q q' where
  back s hs := by
    obtain ⟨hs₁, hentry⟩ := h'.back s hs
    obtain ⟨hs₀, hentry₀⟩ := h.back s hs₁
    exact ⟨hs₀, hentry.trans hentry₀⟩
  homeless s hs harec := by
    have hs₁ := h.homeless s hs harec
    exact h'.homeless s hs₁ (by rw [(h.back s hs₁).2]; exact harec)
  farewells := h.farewells.trans h'.farewells

theorem Dies.spares (h : Dies q s q') (hs : (q.sinsts s).arec ≠ none) : Spares q q' where
  back t ht := ⟨((h.culled.used t).mp ht).1, h.culled.entries t ht⟩
  homeless t ht harec := by
    refine (h.culled.used t).mpr ⟨ht, ?_⟩
    rintro rfl
    exact hs harec
  farewells := h.farewells

theorem runAll_lost_spares {slots : List (Fin n)} (hq : q.Held) (hhosted : ∀ s ∈ slots, (q.sinsts s).arec ≠ none)
    (h : runAll (alertSinst .lostArec) slots q = some q') : Spares q q' := by
  induction slots generalizing q with
  | nil =>
    cases h
    exact .refl _
  | cons s slots ih =>
    obtain ⟨q₁, hstep, hmore⟩ := runAll_cons_eq_some.mp h
    obtain ⟨hs, hslots⟩ := forall_mem_cons.mp hhosted
    obtain ⟨hdies, harecs, -⟩ := alertLost_dies hq hstep
    refine (hdies.spares hs).trans (ih (Effects.held (alertLost_effects hstep) hq) ?_ hmore)
    intro t ht
    rw [harecs t]
    exact hslots t ht

theorem evictArec_spares (hq : q.Held) (h : evictArec q a = some q') : Spares q q' := by
  have hhosted : ∀ s ∈ (q.arecs a).sinsts, (q.sinsts s).arec ≠ none := by
    intro s hs
    rw [evictArec_hosted hq h hs]
    exact some_ne_none a
  obtain ⟨q₁, h₁, -, rfl⟩ := evictArec_eq_some h
  have hspares := runAll_lost_spares hq hhosted h₁
  exact ⟨hspares.back, hspares.homeless, hspares.farewells.log, hspares.farewells.keeps⟩

theorem as_spares (hq : q.Held) (httl : ∀ r ∈ rs, r.ttl = 0)
    (h : runAll (aStep fuel m) rs q = some q') : Spares q q' := by
  induction rs generalizing q with
  | nil =>
    cases h
    exact .refl _
  | cons r rs ih =>
    obtain ⟨q₁, hstep, hmore⟩ := runAll_cons_eq_some.mp h
    obtain ⟨hfirst, hrest⟩ := forall_mem_cons.mp httl
    have hone : Spares q q₁ := by
      rcases aStep_eq_some hstep with ⟨-, rfl⟩ | ⟨a, -, hu⟩
      · exact .refl _
      · unfold updateArecRx at hu
        rw [if_pos hfirst] at hu
        exact evictArec_spares hq hu
    exact hone.trans (ih (Effects.held (aStep_effects hstep) hq) hrest hmore)

end address

section response

def Querier.Caches (q : Querier n k) (N : Labels) : Prop := ∃ s, s ∉ q.sinstsFree ∧ plainLabels (q.sinsts s).fqsn = N

structure Message.Goodbye (m : Message) : Prop where
  response : m.qr = true
  ptrs : ∀ r ∈ m.ptrs, r.ttl = 0
  txts : ∀ r ∈ m.txts, r.ttl = 0
  srvs : ∀ r ∈ m.srvs, r.ttl = 0
  as : ∀ r ∈ m.as, r.ttl = 0

/-- No new name is cached, the user is told of disappeared instances only, and exactly once of each
that he knew of and that has left the cache. -/
structure OnlyRemoves (q q' : Querier n k) : Prop where
  names : ∀ N, q'.Caches N → q.Caches N
  told : ∃ new, q'.log = new ++ q.log ∧ (∀ e ∈ new, e.status = .disappeared) ∧
    ∀ s, q.Shows s → ¬ q'.Shows s → (new.filter (fun e => e.slot = some s)).map Report.fqsn = [(q.sinsts s).fqsn]

/-- What a goodbye has to be like. When the PTR records have toggled their keys, a key under a new
name is that of an SRV record; and a TXT record for an instance that is ready, and that no PTR record
is about, repeats the text that it has. -/
structure Harmless (q : Querier n k) (m : Message) : Prop where
  names : ∀ x ∈ (m.ptrs.foldl (q.bye m) q.shelf).stock, q.Caches x.2 ∨ ∃ r ∈ m.srvs, RecKey q m r x
  texts : ∀ r ∈ m.txts, ∀ s x, s ∉ q.sinstsFree → q.key s = some x → RecKey q m r x → (q.sinsts s).isReady = true →
    (∀ ptr ∈ m.ptrs, ¬ PtrKey q m ptr x) → ¬ TxtNews (q.sinsts s) m.data r

theorem updateServiceCache_eq_some (hqr : m.qr = true) (h : updateServiceCache fuel elapsed q m = some q') :
    ∃ q₁ m₁ q₂ q₃, runAll (ptrStep fuel elapsed) m.ptrs (q, m) = some (q₁, m₁) ∧
      runAll (txtStep fuel elapsed m₁) m₁.txts q₁ = some q₂ ∧ runAll (srvStep fuel elapsed m₁) m₁.srvs q₂ = some q₃ ∧
      runAll (aStep fuel m₁) m₁.as q₃ = some q' := by
  unfold updateServiceCache at h
  rw [if_pos hqr] at h
  simp only [bind_eq_bind, bind_eq_some_iff] at h
  obtain ⟨⟨q₁, m₁⟩, hptr, q₂, htxt, q₃, hsrv, ha⟩ := h
  exact ⟨q₁, m₁, q₂, q₃, hptr, htxt, hsrv, ha⟩

theorem ByeHeard.ready (h : ByeHeard q m m.ptrs q₁) (hs : s ∉ q₁.sinstsFree) (hready : (q₁.sinsts s).isReady = true) :
    s ∉ q.sinstsFree ∧ Unaddressed q m m.ptrs s ∧ q₁.sinsts s = q.sinsts s := by
  rcases h.used s hs with hblank | ⟨hold, hun⟩
  · rw [hblank.ready] at hready
    cases hready
  · exact ⟨hold, hun, (h.kept s hold hun).2⟩

theorem texts_quiet (hh : ByeHeard q m m.ptrs q₁) {q₂ : Querier n k} (hsteps : Steps (ByeTxt m) m.txts q₁ q₂)
    (htexts : ∀ r ∈ m.txts, ∀ s x, s ∉ q.sinstsFree → q.key s = some x → RecKey q m r x → (q.sinsts s).isReady = true →
      (∀ ptr ∈ m.ptrs, ¬ PtrKey q m ptr x) → ¬ TxtNews (q.sinsts s) m.data r) : TxtQuiet q₁ q₂ := by
  apply quiet_of_steps hsteps
  intro r hr s x hs hkey hrec hready
  obtain ⟨hold, hun, hentry⟩ := hh.ready hs hready
  unfold Querier.key at hkey
  rw [hentry] at hkey hready ⊢
  exact htexts r hr s x hold hkey (hh.types.recKey.mp hrec) hready (fun ptr hptr => hun ptr hptr x hkey)

theorem caches_iff {q₂ q₃ : Querier n k} (ht : q₁.Held) (hh : ByeHeard q m m.ptrs q₁) (hquiet : TxtQuiet q₁ q₂)
    (hculled : Culled (Addressed q₂ m m.srvs) q₂ q₃) (hspares : Spares q₃ q') :
    (∀ N, q'.Caches N → q.Caches N) ↔ ∀ x ∈ q₁.shelf.stock, q.Caches x.2 ∨ ∃ r ∈ m.srvs, RecKey q m r x := by
  have htypes : SameTypes q q₂ := hh.types.trans hquiet.types
  constructor
  · rintro hsub x ⟨s, hs, hkey⟩
    by_contra hnot
    obtain ⟨hnew, hno⟩ := not_or.mp hnot
    obtain ⟨-, hname⟩ := key_eq_some.mp hkey
    -- the slot of a new name has no A record, so that it outlasts all that follows
    have hblank : Blank (q₁.sinsts s) := by
      rcases hh.used s hs with hblank | ⟨hold, hun⟩
      · exact hblank
      · rw [(hh.kept s hold hun).2] at hname
        exact absurd ⟨s, hold, hname⟩ hnew
    have hs₂ : s ∉ q₂.sinstsFree := by
      rw [hquiet.free]
      exact hs
    have hs₃ : s ∉ q₃.sinstsFree := by
      refine (hculled.used s).mpr ⟨hs₂, ?_⟩
      rintro ⟨r, hr, y, hy, hrec⟩
      rw [hquiet.key s, hkey] at hy
      cases hy
      exact hno ⟨r, hr, htypes.recKey.mp hrec⟩
    have harec : (q₃.sinsts s).arec = none := by
      rw [hculled.entries s hs₃, (hquiet.places s).arec]
      exact hblank.arec
    have hs' := hspares.homeless s hs₃ harec
    apply hnew
    apply hsub
    refine ⟨s, hs', ?_⟩
    rw [(hspares.back s hs').2, hculled.entries s hs₃, (hquiet.places s).fqsn]
    exact hname
  · rintro hall N ⟨s, hs', hname⟩
    obtain ⟨hs₃, hentry⟩ := hspares.back s hs'
    obtain ⟨hs₂, hnot⟩ := (hculled.used s).mp hs₃
    have hs₁ : s ∉ q₁.sinstsFree := by
      rw [← hquiet.free]
      exact hs₂
    rw [hentry, hculled.entries s hs₃, (hquiet.places s).fqsn] at hname
    obtain ⟨x, hkey, -⟩ := ht.key_active hs₁
    obtain ⟨-, hname'⟩ := key_eq_some.mp hkey
    rw [← hname, hname']
    refine (hall x ⟨s, hs₁, hkey⟩).resolve_right ?_
    rintro ⟨r, hr, hrec⟩
    exact hnot ⟨r, hr, x, (hquiet.key s).trans hkey, htypes.recKey.mpr hrec⟩

/-- In every run, a goodbye that the querier has gone through only removes exactly if it is
harmless. -/
theorem goodbye_onlyRemoves_iff {G : Guard n k} (hq : Run G q) (hm : m.Goodbye)
    (h : updateServiceCache fuel elapsed q m = some q') : OnlyRemoves q q' ↔ Harmless q m := by
  obtain ⟨q₁, m₁, q₂, q₃, hptrs, htxts, hsrvs, has⟩ := updateServiceCache_eq_some hm.response h
  obtain ⟨rfl, ht₁, hfare, hh, hshelf⟩ := ptrs_bye hq.tidy hm.ptrs hptrs
  obtain ⟨hsteps, ht₂⟩ := steps_of_runAll (I := Querier.Tidy) (R := ByeTxt m₁)
    (fun q r _ q' ht hstep => ⟨byeTxt_of_txtStep ht hstep, Effects.tidy (txtStep_effects hstep) ht⟩)
    htxts ht₁
  obtain ⟨hculled, ht₃⟩ := srvs_culled ht₂ hm.srvs hsrvs
  have hspares := as_spares ht₃.held hm.as has
  constructor
  · rintro ⟨hnames, new, hlog, hall, -⟩
    have htexts : ∀ r ∈ m₁.txts, ∀ s x, s ∉ q.sinstsFree → q.key s = some x → RecKey q m₁ r x →
        (q.sinsts s).isReady = true → (∀ ptr ∈ m₁.ptrs, ¬ PtrKey q m₁ ptr x) → ¬ TxtNews (q.sinsts s) m₁.data r := by
      intro r hr s x hs hkey hrec hready hun hnews
      have hun' : Unaddressed q m₁ m₁.ptrs s := by
        intro ptr hptr y hy
        cases hkey.symm.trans hy
        exact hun ptr hptr
      obtain ⟨hs₁, hentry⟩ := hh.kept s hs hun'
      have hkey₁ : q₁.key s = some x := by
        unfold Querier.key
        rw [hentry]
        exact hkey
      rw [← hentry] at hready hnews
      obtain ⟨told, e, htold, he, hstatus⟩ := news_of_steps hsteps hs₁ hkey₁ hready hr (hh.types.recKey.mpr hrec) hnews
      -- the callback is still in the log at the end
      obtain ⟨before, hbefore, -⟩ := hfare.log
      obtain ⟨after, hafter, -⟩ := (hculled.farewells.trans hspares.farewells).log
      rw [hafter, htold, hbefore, ← append_assoc, ← append_assoc] at hlog
      have hmem : e ∈ new := by
        rw [← append_cancel_right hlog]
        exact mem_append_left _ (mem_append_right _ he)
      exact hstatus (hall e hmem)
    have hquiet := texts_quiet hh hsteps htexts
    refine ⟨?_, htexts⟩
    rw [← hshelf]
    exact (caches_iff ht₁.held hh hquiet hculled hspares).mp hnames
  · rintro ⟨hnames, htexts⟩
    have hquiet := texts_quiet hh hsteps htexts
    rw [← hshelf] at hnames
    have hall := ((hfare.trans hquiet.farewells).trans hculled.farewells).trans hspares.farewells
    obtain ⟨new, hlog, hdisappeared, hslots⟩ := hall.log
    exact ⟨(caches_iff ht₁.held hh hquiet hculled hspares).mpr hnames, new, hlog, hdisappeared, fun s => (hslots s).1⟩

theorem stock_of_cached (hd : q.Distinct) {ptrs : List Resource}
    (hall : ∀ ptr ∈ ptrs, ∀ x, PtrKey q m ptr x → q.Caches x.2)
    {S : Shelf (Fin k × Labels)} (hS : ∀ x ∈ S.stock, q.Caches x.2) :
    ∀ x ∈ (ptrs.foldl (q.bye m) S).stock, q.Caches x.2 := by
  induction ptrs generalizing S with
  | nil => exact hS
  | cons ptr ptrs ih =>
    obtain ⟨hfirst, hrest⟩ := forall_mem_cons.mp hall
    apply ih hrest
    by_cases hex : ∃ x, PtrKey q m ptr x
    · obtain ⟨x, hx⟩ := hex
      rw [bye_eq hd hx]
      intro y hy
      unfold Shelf.toggle at hy
      split at hy
      · exact hS y hy.1
      · split at hy
        · rcases hy with rfl | hy
          · exact hfirst y hx
          · exact hS y hy
        · exact hS y hy
    · rw [bye_none (fun x hx => hex ⟨x, hx⟩)]
      exact hS

/-- A test of the states before and after a goodbye, and of the message. -/
def byeTest (evs : List Event) (packet : Mem) (test : Querier 16 4 → Message → Querier 16 4 → Bool) : Bool :=
  match runAll (guardedStep fitting 60) evs (queryLaunch 16 4), mdnsParseMessage 60 packet packet.length with
  | some q, .ok m => match updateServiceCache 60 1 q m with
    | some q' => m.qr && (m.ptrs ++ m.txts ++ m.srvs ++ m.as).all (fun r => r.ttl == 0) && test q m q'
    | none => false
  | _, _ => false

theorem exists_of_byeTest {evs : List Event} {packet : Mem} {test : Querier 16 4 → Message → Querier 16 4 → Bool}
    (h : byeTest evs packet test = true) : ∃ q m q', Run fitting q ∧ m.Goodbye ∧ updateServiceCache 60 1 q m = some q' ∧
      test q m q' = true := by
  unfold byeTest at h
  split at h
  · next q m hq _ =>
    split at h
    · next q' hq' =>
      simp only [Bool.and_eq_true, all_append, List.all_eq_true, beq_iff_eq] at h
      obtain ⟨⟨hqr, ⟨⟨hptrs, htxts⟩, hsrvs⟩, has⟩, htest⟩ := h
      exact ⟨q, m, q', run_of_runAll hq, ⟨hqr, hptrs, htxts, hsrvs, has⟩, hq', htest⟩
    · cases h
  · cases h

set_option maxRecDepth 100000 in
/-- The PTR record of a discovered instance. -/
theorem goodbye_onlyRemoves_discovered :
    ∃ (q : Querier 16 4) (m : Message) (q' : Querier 16 4), Run fitting q ∧ m.Goodbye ∧
    updateServiceCache 60 1 q m = some q' ∧ q.Shows 15 ∧ ¬ q'.Shows 15 ∧ OnlyRemoves q q' := by
  have h : byeTest [.monitor httpType, announce 65 1] (packetOf [httpPtr 0]) (fun q m q' =>
      m.txts.isEmpty && m.ptrs.all (fun ptr =>
        decodeName (.packet m.data) 10 ptr.rdata == some (plainLabels (q.sinsts 15).fqsn)) &&
      decide (15 ∉ q.sinstsFree ∧ (q.sinsts 15).state ≠ .init ∧ 15 ∈ q'.sinstsFree)) = true := by decide +kernel
  obtain ⟨q, m, q', hq, hm, hq', htest⟩ := exists_of_byeTest h
  simp only [Bool.and_eq_true, List.isEmpty_iff, List.all_eq_true, beq_iff_eq, decide_eq_true_eq] at htest
  obtain ⟨⟨htxts, hptrs⟩, hused, hst, hfree⟩ := htest
  have hcached : ∀ ptr ∈ m.ptrs, ∀ x, PtrKey q m ptr x → q.Caches x.2 := by
    intro ptr hptr x hx
    exact ⟨15, hused, (expands_of_decodeName (hptrs ptr hptr)).unique hx.name⟩
  have hnames : ∀ x ∈ q.shelf.stock, q.Caches x.2 := by
    rintro x ⟨s, hs, hkey⟩
    exact ⟨s, hs, (key_eq_some.mp hkey).2⟩
  refine ⟨q, m, q', hq, hm, hq', ⟨hused, hst⟩, fun hshows => hshows.1 hfree,
    (goodbye_onlyRemoves_iff hq hm hq').mpr ⟨?_, ?_⟩⟩
  · exact fun x hx => .inl (stock_of_cached hq.distinct hcached hnames x hx)
  · rw [htxts]
    exact nofun

set_option maxRecDepth 100000 in
/-- The PTR record of an instance that is not in the cache puts it there, and a TXT record is an
update. -/
theorem goodbye_adds_and_updates :
    (∃ (q : Querier 16 4) (m : Message) (q' : Querier 16 4), Run fitting q ∧ m.Goodbye ∧
      updateServiceCache 60 1 q m = some q' ∧ ¬ OnlyRemoves q q') ∧
    ∃ (q : Querier 16 4) (m : Message) (q' : Querier 16 4), Run fitting q ∧ m.Goodbye ∧
      updateServiceCache 60 1 q m = some q' ∧ q'.log.map Report.status = [.updated, .discovered] ∧
        ¬ OnlyRemoves q q' := by
  have hadd : byeTest [.monitor httpType] (packetOf [httpPtr 0]) (fun q _ q' =>
      decide ((∀ s, s ∈ q.sinstsFree) ∧ 15 ∉ q'.sinstsFree)) = true := by decide +kernel
  have hupdate : byeTest [.monitor httpType, announce 65 1]
      (packetOf [wireRecord ([1, 97] ++ httpType) tTxt 0 [3, 97, 61, 98]]) (fun q _ q' =>
      decide (q.log.map Report.status = [.discovered] ∧
        q'.log.map Report.status = [.updated, .discovered])) = true := by
    decide +kernel
  constructor
  · obtain ⟨q, m, q', hq, hm, hq', htest⟩ := exists_of_byeTest hadd
    obtain ⟨hempty, hused⟩ := of_decide_eq_true htest
    refine ⟨q, m, q', hq, hm, hq', ?_⟩
    rintro ⟨hnames, -⟩
    obtain ⟨s, hs, -⟩ := hnames _ ⟨15, hused, rfl⟩
    exact hs (hempty s)
  · obtain ⟨q, m, q', hq, hm, hq', htest⟩ := exists_of_byeTest hupdate
    obtain ⟨hbefore, hafter⟩ := of_decide_eq_true htest
    refine ⟨q, m, q', hq, hm, hq', hafter, ?_⟩
    rintro ⟨-, new, hlog, hall, -⟩
    rw [hlog, map_append, hbefore] at hafter
    have hnew : new.map Report.status = [.updated] :=
      append_cancel_right (hafter : _ = [Status.updated] ++ [Status.discovered])
    obtain ⟨e, he, hstatus⟩ : ∃ e ∈ new, Report.status e = .updated := by
      apply List.mem_map.mp
      rw [hnew]
      exact mem_singleton.mpr rfl
    rw [hall e he] at hstatus
    cases hstatus

end response

end Mdns
