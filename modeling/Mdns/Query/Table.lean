import Mdns.Query.Evolve
import Mdns.Query.Invariant
import Mdns.Query.Lookup

/-!
# The table of monitors

`add_service` and `remove_service` over whole runs. A monitor can always be closed, also in a run
that leaves an instance on the list of an A record.
-/
namespace Mdns
open Lib Relation List Option

variable {n k : Nat}

section held
variable {ok : Mem → Prop} {q q₁ q' : Querier n k} {s a : Fin n} {c : Fin k} {own : List (Fin k)}
  {slots : List (Fin n)}

/-- The lists of the querier agree as far as `Held` says. -/
def Querier.Held (q : Querier n k) : Prop := q.reg.Held q.smonsActive

theorem cleanupSinst_member (h : cleanupSinst q s = some q') :
    ∃ c, (q.sinsts s).smon = some c ∧ s ∈ (q.smons c).sinsts := by
  unfold cleanupSinst at h
  simp only [bind_eq_bind, bind_eq_some_iff] at h
  obtain ⟨c, hc, members, hm, -⟩ := h
  exact ⟨c, hc, (slistRemove_eq_some.mp hm).1⟩

theorem cleanupSinst_held (hq : q.reg.Held own) (h : cleanupSinst q s = some q') : q'.reg.Held own := by
  obtain ⟨c, -, hmem⟩ := cleanupSinst_member h
  rw [(cleaned_of_cleanupSinst h).reg]
  exact hq.release ((hq.members.mem_iff c s).mp hmem).1

theorem reg_abandon (q : Querier n k) (s : Fin n) :
    (q.setSinst s { q.sinsts s with arec := none }).reg = q.reg.abandon s := by
  have h1 := field_update_same (g := ServiceInstance.smon) (f := q.sinsts) (a := s)
    (b := { q.sinsts s with arec := none }) rfl
  have h2 := field_update (ServiceInstance.arec) q.sinsts s { q.sinsts s with arec := none }
  have h3 := field_update_same (g := fun i : ServiceInstance n k => i.state.shown) (f := q.sinsts) (a := s)
    (b := { q.sinsts s with arec := none }) rfl
  have h4 := field_update_same (g := ServiceInstance.fqsn) (f := q.sinsts) (a := s)
    (b := { q.sinsts s with arec := none }) rfl
  simp only [Querier.reg, Querier.setSinst, h1, h2, h3, h4, Registry.abandon]

theorem held_setSinst {i : ServiceInstance n k} (hq : q.reg.Held own) (hm : i.smon = (q.sinsts s).smon)
    (ha : i.arec = (q.sinsts s).arec) : (q.setSinst s i).reg.Held own := by
  have hown : (q.setSinst s i).reg.owner = q.reg.owner :=
    field_update_same (g := ServiceInstance.smon) (f := q.sinsts) hm
  have hhost : (q.setSinst s i).reg.host = q.reg.host :=
    field_update_same (g := ServiceInstance.arec) (f := q.sinsts) ha
  refine ⟨hq.freeNodup, ?_, ?_, ?_, hq.hosts, hq.owners⟩
  · rw [hown]
    exact hq.members
  · rw [hown]
    exact hq.owned
  · rw [hhost]
    exact hq.hosted

/-- The instances of a monitor are given back: their slots are free, and neither the other
monitors nor their instances have changed. -/
structure Emptied {H I : Type} (q : Querier n k H I) (c : Fin k) (q' : Querier n k H I) : Prop where
  slots : q'.sinstsFree = (q.smons c).sinsts.reverse ++ q.sinstsFree
  emptied : (q'.smons c).sinsts = []
  others : ∀ d, d ≠ c → q'.smons d = q.smons d
  instances : ∀ s, s ∉ (q.smons c).sinsts → q'.sinsts s = q.sinsts s
  arecs : ∀ a, q'.arecs a = { q.arecs a with sinsts := (q'.arecs a).sinsts }
  log : q'.log = q.log

structure Removed {H I : Type} (q : Querier n k H I) (c : Fin k) (q' : Querier n k H I) :
    Prop extends Emptied q c q' where
  active : q'.smonsActive = q.smonsActive.erase c
  free : q'.smonsFree = c :: q.smonsFree

theorem Cleaned.member (h : Cleaned q s q') (ho : (q.sinsts s).smon = some c)
    (hslots : (q.smons c).sinsts = s :: slots) :
    (q'.smons c).sinsts = slots ∧ q'.sinstsFree = s :: q.sinstsFree ∧ q'.smonsFree = q.smonsFree ∧
      ∀ d, d ≠ c → q'.smons d = q.smons d := by
  have howner : q.reg.owner s = some c := ho
  have hmembers : ∀ d, (q'.smons d).sinsts = unlink q.reg.owner q.reg.members s d :=
    fun d => congrFun (congrArg Registry.members h.reg) d
  refine ⟨?_, congrArg Registry.free h.reg, congrArg Registry.freeM h.reg, ?_⟩
  · have hms : q.reg.members c = s :: slots := hslots
    rw [hmembers c, unlink_apply, if_pos howner, hms, erase_cons_head]
  · intro d hd
    have hsame : (q'.smons d).sinsts = (q.smons d).sinsts := by
      rw [hmembers d, unlink_apply, if_neg]
      · rfl
      · intro hcon
        exact hd (some.inj (hcon.symm.trans howner))
    rw [h.smons d, hsame]

theorem runAll_cleanupSinst_emptied (hq : q.reg.Held own) (hslots : (q.smons c).sinsts = slots) :
    ∃ q', runAll cleanupSinst slots q = some q' ∧ Emptied q c q' ∧ q'.smonsActive = q.smonsActive ∧
      q'.smonsFree = q.smonsFree ∧ q'.reg.Held own := by
  induction slots generalizing q with
  | nil =>
    refine ⟨q, rfl, ⟨?_, hslots, fun _ _ => rfl, fun _ _ => rfl, fun _ => rfl, rfl⟩, rfl, rfl, hq⟩
    rw [hslots]
    rfl
  | cons s slots ih =>
    have hmem : s ∈ q.reg.members c := by
      show s ∈ (q.smons c).sinsts
      rw [hslots]
      exact mem_cons_self ..
    obtain ⟨hused, howner⟩ := (hq.members.mem_iff c s).mp hmem
    obtain ⟨q₁, h₁⟩ := cleanupSinst_returns hq hused
    have hcl := cleaned_of_cleanupSinst h₁
    obtain ⟨hrest, hfree, hfreeM, hothers⟩ := hcl.member howner hslots
    obtain ⟨q', h', he, hactive', hfreeM', hq'⟩ := ih (cleanupSinst_held hq h₁) hrest
    refine ⟨q', runAll_cons_eq_some.mpr ⟨q₁, h₁, h'⟩, ⟨?_, he.emptied, ?_, ?_, ?_, ?_⟩,
      hactive'.trans hcl.smonsActive, hfreeM'.trans hfreeM, hq'⟩
    · rw [he.slots, hrest, hfree, hslots, reverse_cons, append_assoc, singleton_append]
    · intro d hd
      rw [he.others d hd, hothers d hd]
    · intro t ht
      rw [hslots] at ht
      obtain ⟨hts, ht⟩ := not_or.mp (fun hor => ht (mem_cons.mpr hor))
      rw [he.instances t (by rw [hrest]; exact ht), hcl.sinsts, Function.update_of_ne hts]
    · intro a
      rw [he.arecs a, hcl.arecs a]
    · rw [he.log, hcl.log]

theorem closeMonitor_removed (hq : q.Held) (hc : c ∈ q.smonsActive) :
    ∃ q', closeMonitor q c = some q' ∧ Removed q c q' ∧ q'.Held := by
  have hq₀ : ({ q with smonsActive := q.smonsActive.erase c } : Querier n k).reg.Held q.smonsActive := hq
  obtain ⟨q₁, h₁, he, hactive, hfree, hq₁⟩ := runAll_cleanupSinst_emptied (c := c) hq₀ rfl
  refine ⟨{ q₁ with smonsFree := c :: q₁.smonsFree }, ?_, ?_, ?_⟩
  · unfold closeMonitor
    rw [slistRemove_of_mem hc]
    simp only [bind_eq_bind, bind_some, h₁, Option.pure_def]
  · exact ⟨⟨he.slots, he.emptied, he.others, he.instances, he.arecs, he.log⟩, hactive, congrArg (List.cons c) hfree⟩
  · show (q₁.reg.finish c).Held q₁.smonsActive
    rw [hactive]
    exact hq₁.finish hc he.emptied

theorem closeMonitor_mem (h : closeMonitor q c = some q') : c ∈ q.smonsActive := by
  unfold closeMonitor at h
  simp only [bind_eq_bind, bind_eq_some_iff] at h
  obtain ⟨active, hactive, -⟩ := h
  exact (slistRemove_eq_some.mp hactive).1

theorem closeMonitor_eq_some (hq : q.Held) (h : closeMonitor q c = some q') : Removed q c q' ∧ q'.Held := by
  obtain ⟨q₁, h₁, hr, hq₁⟩ := closeMonitor_removed hq (closeMonitor_mem h)
  cases h₁.symm.trans h
  exact ⟨hr, hq₁⟩

theorem closeMonitor_kept (hq : q.Held) (h : closeMonitor q c = some q') {t : Fin n} (ht : t ∉ q'.sinstsFree) :
    t ∉ q.sinstsFree ∧ q'.sinsts t = q.sinsts t := by
  obtain ⟨hr, -⟩ := closeMonitor_eq_some hq h
  rw [hr.slots, mem_append, mem_reverse] at ht
  exact ⟨(not_or.mp ht).2, hr.instances t (not_or.mp ht).1⟩

theorem Effect.held (h : Effect ok q q') (hq : q.Held) : q'.Held := by
  have hq : q.reg.Held q.smonsActive := hq
  cases h with
  | sends _ => exact hq
  | reports _ => exact ⟨hq.freeNodup, hq.members, hq.owned, hq.hosted, hq.hosts, hq.owners⟩
  | renews _ hp => exact held_setSinst hq hp.smon hp.arec
  | resolves _ hs hf =>
    unfold Querier.Held
    rw [reg_setArec hs hf]
    exact hq
  | schedules _ hs hsession hf =>
    unfold Querier.Held
    rw [reg_setSmon hs hsession hf]
    exact hq
  | cleans hclean =>
    unfold Querier.Held
    rw [(cleaned_of_cleanupSinst hclean).smonsActive]
    exact cleanupSinst_held hq hclean
  | hosts ha hh =>
    unfold Querier.Held
    rw [hh.smonsActive, hh.reg]
    exact hq.attach ha
  | abandons s =>
    unfold Querier.Held
    rw [reg_abandon]
    exact hq.abandon
  | @enlists _ _ _ _ _ fqdn _ _ hfree =>
    unfold Querier.Held
    rw [reg_enlist]
    exact hq.enlist hfree
  | @blanks s free c hfree =>
    unfold Querier.Held
    rw [reg_setSinst_all]
    exact hq.clear (show s ∈ q.sinstsFree by rw [hfree]; exact mem_cons_self ..)
  | @adopts s free c i _ _ _ ptrTtl hc _ hfree hcopy =>
    obtain ⟨name, _, _, _, _, -, rfl⟩ := copyServinfo_eq_some hcopy
    have hreg : ({ q with sinstsFree := free }.setSmon c { q.smons c with sinsts := s :: (q.smons c).sinsts }).reg =
        { q.reg with free, members := link q.reg.members c s } :=
      reg_setSmon_sinsts { q with sinstsFree := free } c (s :: (q.smons c).sinsts)
    unfold Querier.Held
    rw [reg_setSinst_all, hreg]
    exact hq.adopt hfree hc
  | @begins c free _ fqst _ _ hfree =>
    have hreg := reg_begin q c free fqst
    unfold Querier.Held newMonitor
    rw [hreg]
    exact hq.begin hfree
  | closes hclose => exact (closeMonitor_eq_some hq hclose).2

theorem Effects.held (h : Effects (fun _ => True) q q') (hq : q.Held) : q'.Held :=
  keeps_of_reflTransGen (R := Effect _) (fun _ _ he hq => he.held hq) h hq

theorem Run.held {G : Guard n k} (h : Run G q) : q.Held := by
  have hnew : (queryLaunch n k).Sound False := sound_queryLaunch n k
  exact h.keeps hnew.linked.held (fun _ _ he hq => he.held hq)

end held

section names
variable {ok : Mem → Prop} {q q' : Querier n k} {c : Fin k} {G : Guard n k}

/-- The monitors after an effect: those of before under their names, or one more whose name none
of them was found to have. -/
inductive Monitored (ok : Mem → Prop) (q : Querier n k) : Querier n k → Prop where
  | kept {q' : Querier n k} : (∀ c ∈ q'.smonsActive,
      c ∈ q.smonsActive ∧ (q'.smons c).fqst = (q.smons c).fqst) → Monitored ok q q'
  | begun {c : Fin k} {free : List (Fin k)} {fuel : Nat} {fqst : Mem} : ok fqst →
      findServiceMonitor fuel q (.plain fqst) (some 0) = some none → Monitored ok q
      ({ q with smonsFree := free, smonsActive := c :: q.smonsActive, sessions := q.sessions + 1 }.setSmon c
        (newMonitor fqst q.sessions))

theorem monitored_of_kind (hactive : q'.smonsActive = q.smonsActive) (hkind : q'.reg.kind = q.reg.kind) :
    Monitored ok q q' :=
  .kept (fun c hc => ⟨hactive ▸ hc, congrFun hkind c⟩)

theorem Effect.monitored (h : Effect ok q q') (hq : q.Held) : Monitored ok q q' := by
  cases h with
  | sends _ => exact monitored_of_kind rfl rfl
  | reports _ => exact monitored_of_kind rfl rfl
  | renews _ _ => exact monitored_of_kind rfl rfl
  | resolves _ _ _ => exact monitored_of_kind rfl rfl
  | schedules _ hs hsession hf => exact monitored_of_kind rfl (by rw [reg_setSmon hs hsession hf])
  | cleans hclean =>
    have hcl := cleaned_of_cleanupSinst hclean
    exact monitored_of_kind hcl.smonsActive (by rw [hcl.reg]; rfl)
  | hosts _ hh => exact monitored_of_kind hh.smonsActive (by rw [hh.reg]; rfl)
  | abandons s => exact monitored_of_kind rfl rfl
  | enlists _ _ => exact monitored_of_kind rfl rfl
  | blanks _ _ => exact monitored_of_kind rfl rfl
  | @adopts s free c i _ _ _ _ _ _ _ _ =>
    refine .kept ?_
    intro d hd
    have hlist := setSmon_sinsts_apply { q with sinstsFree := free } c d (s :: (q.smons c).sinsts)
    exact ⟨hd, (congrArg ServiceMonitor.fqst hlist :)⟩
  | begins hok hfind _ => exact .begun hok hfind
  | @closes c _ hclose =>
    obtain ⟨hr, -⟩ := closeMonitor_eq_some hq hclose
    refine .kept ?_
    intro d hd
    rw [hr.active] at hd
    obtain ⟨hdc, hd⟩ := (hq.owners.onNodup.mem_erase_iff).mp hd
    exact ⟨hd, by rw [hr.others d hdc]⟩

def Querier.Distinct {H I : Type} (q : Querier n k H I) : Prop :=
  ∀ c ∈ q.smonsActive, ∀ d ∈ q.smonsActive, ∀ N, Expands (.plain (q.smons c).fqst) 0 N →
    Expands (.plain (q.smons d).fqst) 0 N → c = d

theorem not_expands_of_find {fuel : Nat} {fqst : Mem} (h : findServiceMonitor fuel q (.plain fqst) (some 0) = some none)
    (hc : c ∈ q.smonsActive) {N : Labels} (hN : Expands (.plain (q.smons c).fqst) 0 N) :
    ¬ Expands (.plain fqst) 0 N := by
  intro hN'
  have hcmp : sameName fuel (q.smons c).fqst (.plain fqst) 0 = some false := findFirst_none h c hc
  unfold sameName at hcmp
  obtain ⟨r, hr, hne⟩ := map_eq_some_iff.mp hcmp
  rw [dnameCmp_eq hr hN hN', cmpLabels_eq_zero.mpr rfl] at hne
  cases hne

theorem Monitored.distinct (h : Monitored ok q q') (hd : q.Distinct) : q'.Distinct := by
  cases h with
  | kept hkept =>
    intro c hc d hd' N hN hN'
    obtain ⟨hc, hname⟩ := hkept c hc
    obtain ⟨hd', hname'⟩ := hkept d hd'
    rw [hname] at hN
    rw [hname'] at hN'
    exact hd c hc d hd' N hN hN'
  | @begun c free fuel fqst _ hfind =>
    -- the new name against those of before, on either side
    have hnew : ∀ d ∈ q.smonsActive, ∀ N, Expands (.plain (q.smons d).fqst) 0 N → ¬ Expands (.plain fqst) 0 N :=
      fun d hd N hN => not_expands_of_find hfind hd hN
    intro d hd₁ e he₁ N hN hN'
    by_cases hdc : d = c
    · by_cases hec : e = c
      · rw [hdc, hec]
      · rw [hdc, setSmon_self] at hN
        rw [setSmon_others _ c _ hec] at hN'
        exact absurd hN (hnew e (mem_of_ne_of_mem hec he₁) N hN')
    · rw [setSmon_others _ c _ hdc] at hN
      by_cases hec : e = c
      · rw [hec, setSmon_self] at hN'
        exact absurd hN' (hnew d (mem_of_ne_of_mem hdc hd₁) N hN)
      · rw [setSmon_others _ c _ hec] at hN'
        exact hd d (mem_of_ne_of_mem hdc hd₁) e (mem_of_ne_of_mem hec he₁) N hN hN'

/-- The slots in use have names, and no two of one monitor have the same. -/
structure Querier.NamesApart (q : Querier n k) : Prop where
  named : ∀ s, s ∉ q.sinstsFree → WfName (q.sinsts s).fqsn
  apart : ∀ s t, s ∉ q.sinstsFree → t ∉ q.sinstsFree → (q.sinsts s).smon = (q.sinsts t).smon →
    plainLabels (q.sinsts s).fqsn = plainLabels (q.sinsts t).fqsn → s = t

theorem Querier.NamesApart.mono (h : q.NamesApart) (hfree : ∀ s, s ∉ q'.sinstsFree → s ∉ q.sinstsFree)
    (hsmon : ∀ s, s ∉ q'.sinstsFree → (q'.sinsts s).smon = (q.sinsts s).smon)
    (hfqsn : ∀ s, s ∉ q'.sinstsFree → (q'.sinsts s).fqsn = (q.sinsts s).fqsn) : q'.NamesApart where
  named s hs := by
    rw [hfqsn s hs]
    exact h.named s (hfree s hs)
  apart s t hs ht hsame hname := by
    rw [hsmon s hs, hsmon t ht] at hsame
    rw [hfqsn s hs, hfqsn t ht] at hname
    exact h.apart s t (hfree s hs) (hfree t ht) hsame hname

theorem Querier.NamesApart.set {s : Fin n} {i : ServiceInstance n k} (h : q.NamesApart)
    (hm : i.smon = (q.sinsts s).smon)
    (hn : i.fqsn = (q.sinsts s).fqsn) : (q.setSinst s i).NamesApart :=
  h.mono (fun _ ht => ht) (fun t _ => congrFun (field_update_same (g := ServiceInstance.smon) (f := q.sinsts) hm) t)
    (fun t _ => congrFun (field_update_same (g := ServiceInstance.fqsn) (f := q.sinsts) hn) t)

theorem Querier.NamesApart.adopt {s : Fin n} {free : List (Fin n)} {i : ServiceInstance n k}
    (h : q.NamesApart) (hq : q.Held)
    (hfree : q.sinstsFree = s :: free) (hi : i.smon = some c) (hw : WfName i.fqsn)
    (hfresh : ∀ t ∈ q.reg.members c, plainLabels (q.reg.name t) ≠ plainLabels i.fqsn)
    {smons : Fin k → ServiceMonitor n} :
    (({ q with sinstsFree := free, smons } : Querier n k).setSinst s i).NamesApart := by
  have hused : ∀ t, t ∉ free → t ≠ s → t ∉ q.sinstsFree := by
    intro t ht hts
    rw [hfree]
    exact not_mem_cons_of_ne_of_not_mem hts ht
  -- the others against the new one
  have hother : ∀ t, t ∉ free → t ≠ s → (q.sinsts t).smon = some c →
    plainLabels (q.sinsts t).fqsn ≠ plainLabels i.fqsn :=
    fun t ht hts ho => hfresh t ((hq.members.mem_iff c t).mpr ⟨hused t ht hts, ho⟩)
  constructor
  · intro t ht
    by_cases hts : t = s
    · rw [hts, setSinst_self]
      exact hw
    · rw [setSinst_others _ s i hts]
      exact h.named t (hused t ht hts)
  · intro t u ht hu hsame hname
    by_cases hts : t = s <;> by_cases hus : u = s
    · rw [hts, hus]
    · rw [hts, setSinst_self, setSinst_others _ s i hus] at hsame hname
      exact absurd hname.symm (hother u hu hus (hsame.symm.trans hi))
    · rw [hus, setSinst_self, setSinst_others _ s i hts] at hsame hname
      exact absurd hname (hother t ht hts (hsame.trans hi))
    · rw [setSinst_others _ s i hts, setSinst_others _ s i hus] at hsame hname
      exact h.apart t u (hused t ht hts) (hused u hu hus) hsame hname

theorem Effect.namesApart (h : Effect ok q q') (hq : q.Held) (hn : q.NamesApart) : q'.NamesApart := by
  cases h with
  | sends _ => exact ⟨hn.named, hn.apart⟩
  | reports _ => exact ⟨hn.named, hn.apart⟩
  | renews _ hp => exact hn.set hp.smon hp.fqsn
  | resolves _ _ _ => exact ⟨hn.named, hn.apart⟩
  | schedules _ _ _ _ => exact ⟨hn.named, hn.apart⟩
  | @cleans s _ hclean =>
    have hcl := cleaned_of_cleanupSinst hclean
    have hne : ∀ t, t ∉ q'.sinstsFree → t ≠ s ∧ t ∉ q.sinstsFree := by
      intro t ht
      rw [hcl.free] at ht
      exact ⟨ne_of_not_mem_cons ht, not_mem_of_not_mem_cons ht⟩
    exact hn.mono (fun t ht => (hne t ht).2) (fun t ht => by rw [hcl.others (hne t ht).1])
      (fun t ht => by rw [hcl.others (hne t ht).1])
  | @hosts s a _ _ _ hh =>
    obtain ⟨hm, -, hf⟩ := sameEntry_takeAddress (q.sinsts s) (q.arecs a)
    have hset := hn.set (s := s) (i := { takeAddress (q.sinsts s) (q.arecs a) with arec := some a }) hm hf
    exact hset.mono (fun t ht => by rwa [hh.free] at ht) (fun t _ => by rw [hh.sinsts]; rfl)
      (fun t _ => by rw [hh.sinsts]; rfl)
  | abandons s => exact hn.set rfl rfl
  | enlists _ _ => exact ⟨hn.named, hn.apart⟩
  | @blanks s free c hfree =>
    have hne : ∀ t, t ∉ q.sinstsFree → t ≠ s := by
      rintro t ht rfl
      rw [hfree] at ht
      exact ht (mem_cons_self ..)
    exact hn.mono (fun t ht => ht) (fun t ht => by rw [setSinst_others _ s _ (hne t ht)])
      (fun t ht => by rw [setSinst_others _ s _ (hne t ht)])
  | @adopts s free c i _ m off ptrTtl hc hinst hfree hinfo =>
    obtain ⟨name, _, _, _, _, hcopy, rfl⟩ := copyServinfo_eq_some hinfo
    have hnamed : ∀ t ∈ q.reg.members c, WfName (q.reg.name t) :=
      fun t ht => hn.named t ((hq.members.mem_iff c t).mp ht).1
    exact hn.adopt hq hfree rfl (wfName_of_dnameCopy hcopy) (fresh_of_findServiceInstance hnamed hinst hcopy)
  | begins _ _ _ => exact ⟨hn.named, hn.apart⟩
  | @closes c _ hclose =>
    have hkept := fun t => closeMonitor_kept hq hclose (t := t)
    exact hn.mono (fun t ht => (hkept t ht).1) (fun t ht => by rw [(hkept t ht).2]) (fun t ht => by rw [(hkept t ht).2])

structure Querier.Tidy (q : Querier n k) : Prop where
  held : q.Held
  distinct : q.Distinct
  apart : q.NamesApart

theorem Effect.tidy (h : Effect ok q q') (ht : q.Tidy) : q'.Tidy :=
  ⟨h.held ht.held, (h.monitored ht.held).distinct ht.distinct, h.namesApart ht.held ht.apart⟩

theorem Effects.tidy (h : Effects (fun _ => True) q q') (ht : q.Tidy) : q'.Tidy :=
  keeps_of_reflTransGen (R := Effect _) (fun _ _ he ht => he.tidy ht) h ht

theorem Run.tidy (h : Run G q) : q.Tidy := by
  have hnone : ∀ s : Fin n, s ∈ (queryLaunch n k).sinstsFree := fun s => mem_reverse.mpr (mem_finRange s)
  refine h.keeps (P := Querier.Tidy) ⟨Run.held (G := G) .launch, nofun, ?_, ?_⟩ (fun _ _ he ht => he.tidy ht)
  · exact fun s hs => absurd (hnone s) hs
  · exact fun s _ hs => absurd (hnone s) hs

theorem Run.distinct (h : Run G q) : q.Distinct := h.tidy.distinct

def Querier.Typed {H I : Type} (q : Querier n k H I) : Prop := ∀ c ∈ q.smonsActive, WfName (q.smons c).fqst

theorem Monitored.typed (h : Monitored WfName q q') (ht : q.Typed) : q'.Typed := by
  cases h with
  | kept hkept =>
    intro c hc
    obtain ⟨hc, hname⟩ := hkept c hc
    rw [hname]
    exact ht c hc
  | @begun c free fuel fqst hok _ =>
    intro d hd
    by_cases hdc : d = c
    · rw [hdc, setSmon_self]
      exact hok
    · rw [setSmon_others _ c _ hdc]
      exact ht d (mem_of_ne_of_mem hdc hd)

end names

section commands
variable {H I : Type} {q q' : Querier n k H I} {c : Fin k} {fuel : Nat} {fqst : Mem}

/-- What `add_service` returns. -/
inductive AddStatus where
  | success
  | inuse
  | nomem
  deriving DecidableEq, Repr

/-- `add_service` with its return value. -/
def addServiceRet (fuel : Nat) (q : Querier n k H I) (fqst : Mem) : Option (Querier n k H I × AddStatus) := do
  match ← findServiceMonitor fuel q (.plain fqst) (some 0) with
  | some _ => return (q, .inuse)
  | none => match q.smonsFree with
    | [] => return (q, .nomem)
    | c :: free =>
      let mon := { fqst, refreshPeriod := 1000, session := q.sessions }
      return ({ q with smonsFree := free, smonsActive := c :: q.smonsActive, sessions := q.sessions + 1 }.setSmon c mon,
        .success)

theorem addService_eq (fuel : Nat) (q : Querier n k H I) (fqst : Mem) :
    addService fuel q fqst = (addServiceRet fuel q fqst).map Prod.fst := by
  unfold addService addServiceRet
  cases findServiceMonitor fuel q (.plain fqst) (some 0) with
  | none => rfl
  | some found =>
    cases found with
    | some _ => rfl
    | none => cases hfree : q.smonsFree <;> rfl

/-- What the code of `add_service` says about the table before and after it. -/
structure Enrolled (q : Querier n k H I) (fqst : Mem) (q' : Querier n k H I) (status : AddStatus) : Prop where
  inuse : status = .inuse ↔ ∃ c ∈ q.smonsActive, plainLabels (q.smons c).fqst = plainLabels fqst
  nomem : status = .nomem ↔ (∀ c ∈ q.smonsActive, plainLabels (q.smons c).fqst ≠ plainLabels fqst) ∧ q.smonsFree = []
  failed : status ≠ .success → q' = q
  success : status = .success → ∃ c free, q.smonsFree = c :: free ∧ q'.smonsFree = free ∧
    q'.smonsActive = c :: q.smonsActive ∧ (q'.smons c).fqst = fqst ∧ (q'.smons c).sinsts = [] ∧
    (q'.smons c).nextRefresh = 0 ∧ (∀ d, d ≠ c → q'.smons d = q.smons d) ∧ q'.sinsts = q.sinsts ∧
    q'.sinstsFree = q.sinstsFree ∧ q'.arecs = q.arecs

theorem find_comes (ht : q.Typed) (hw : WfName fqst) :
    Comes (fun fuel => findServiceMonitor fuel q (.plain fqst) (some 0)) (some (q.monitorOf (plainLabels fqst))) :=
  findFirst_comes (fun c hc => sameName_comes (ht c hc) hw)

theorem addServiceRet_comes (ht : q.Typed) (hw : WfName fqst) :
    ∃ q' status, Comes (fun fuel => addServiceRet fuel q fqst) (some (q', status)) ∧ Enrolled q fqst q' status := by
  have hfind := find_comes ht hw
  cases hmon : q.monitorOf (plainLabels fqst) with
  | some c =>
    rw [hmon] at hfind
    obtain ⟨hname, hc⟩ := And.intro (find?_some hmon) (mem_of_find?_eq_some hmon)
    have hequal : plainLabels (q.smons c).fqst = plainLabels fqst := of_decide_eq_true hname
    refine ⟨q, .inuse, comes_bind_some hfind (comes_const _), ?_, ?_, fun _ => rfl, nofun⟩
    · exact ⟨fun _ => ⟨c, hc, hequal⟩, fun _ => rfl⟩
    · exact ⟨nofun, fun hnone => absurd hequal (hnone.1 c hc)⟩
  | none =>
    rw [hmon] at hfind
    have hnone : ∀ c ∈ q.smonsActive, plainLabels (q.smons c).fqst ≠ plainLabels fqst := by
      intro c hc hequal
      exact absurd (decide_eq_true hequal) (find?_eq_none.mp hmon c hc)
    have hinuse : ¬ ∃ c ∈ q.smonsActive, plainLabels (q.smons c).fqst = plainLabels fqst :=
      fun ⟨c, hc, hequal⟩ => hnone c hc hequal
    cases hfree : q.smonsFree with
    | nil =>
      refine ⟨q, .nomem, comes_bind_some hfind ?_, ⟨nofun, fun h => absurd h hinuse⟩, ?_, fun _ => rfl, nofun⟩
      · simp only [hfree]
        exact comes_const _
      · exact ⟨fun _ => ⟨hnone, hfree⟩, fun _ => rfl⟩
    | cons c free =>
      refine ⟨{ q with smonsFree := free, smonsActive := c :: q.smonsActive, sessions := q.sessions + 1 }.setSmon c
        (newMonitor fqst q.sessions), .success, comes_bind_some hfind ?_,
          ⟨nofun, fun h => absurd h hinuse⟩, ⟨nofun, ?_⟩,
        fun h => absurd rfl h, ?_⟩
      · simp only [hfree]
        exact comes_const _
      · intro h
        rw [hfree] at h
        cases h.2
      · intro _
        refine ⟨c, free, hfree, rfl, rfl, ?_, ?_, ?_, ?_, rfl, rfl, rfl⟩
        · rw [setSmon_self]
          rfl
        · rw [setSmon_self]
          rfl
        · rw [setSmon_self]
          rfl
        · intro d hd
          exact setSmon_others _ c _ hd

theorem byte_zero_iff (hw : WfName fqst) : byte fqst 0 = 0 ↔ plainLabels fqst = [] := by
  have hexp : Expands (.plain fqst) 0 (plainLabels fqst) := hw
  constructor
  · intro hz
    exact hexp.unique (.root hz)
  · intro hnil
    rw [hnil] at hexp
    cases hexp with
    | root hz => exact hz
    | jump hrel _ _ => cases hrel

section closing
variable [AList n H I]

/-- The monitors have slots and names of their own, and each of them, or all, can be closed. -/
structure Querier.Orderly (q : Querier n k H I) : Prop where
  slots : Splits q.smonsActive q.smonsFree
  distinct : q.Distinct
  close : ∀ c ∈ q.smonsActive, ∃ q', closeMonitor q c = some q' ∧ Removed q c q'
  closeAll : ∃ q', runAll closeMonitor q.smonsActive q = some q' ∧ q'.smonsActive = [] ∧ (∀ c, c ∈ q'.smonsFree) ∧
    ∀ s, s ∈ q'.sinstsFree

theorem removeService_comes (hq : q.Orderly) (ht : q.Typed) (hw : WfName fqst) (hne : plainLabels fqst ≠ []) :
    ∃ q', Comes (fun fuel => removeService fuel q fqst) (some q') ∧
      ((∀ c ∈ q.smonsActive, plainLabels (q.smons c).fqst ≠ plainLabels fqst) → q' = q) ∧
      ∀ c ∈ q.smonsActive, plainLabels (q.smons c).fqst = plainLabels fqst → Removed q c q' := by
  have hbyte : byte fqst 0 ≠ 0 := fun hz => hne ((byte_zero_iff hw).mp hz)
  have hfind := find_comes ht hw
  unfold removeService
  simp only [if_neg hbyte]
  cases hmon : q.monitorOf (plainLabels fqst) with
  | none =>
    rw [hmon] at hfind
    refine ⟨q, comes_bind_some hfind (comes_const _), fun _ => rfl, ?_⟩
    intro c hc hequal
    exact absurd (decide_eq_true hequal) (find?_eq_none.mp hmon c hc)
  | some c =>
    rw [hmon] at hfind
    obtain ⟨hname, hc⟩ := And.intro (find?_some hmon) (mem_of_find?_eq_some hmon)
    have hequal : plainLabels (q.smons c).fqst = plainLabels fqst := of_decide_eq_true hname
    obtain ⟨q', hclose, hr⟩ := hq.close c hc
    refine ⟨q', comes_bind_some hfind ?_, fun hnone => absurd hequal (hnone c hc), ?_⟩
    · simp only [hclose]
      exact comes_const _
    · intro d hd' hequal'
      have hexp : Expands (.plain (q.smons c).fqst) 0 (plainLabels fqst) := by
        rw [← hequal]
        exact ht c hc
      have hexp' : Expands (.plain (q.smons d).fqst) 0 (plainLabels fqst) := by
        rw [← hequal']
        exact ht d hd'
      rw [hq.distinct d hd' c hc _ hexp' hexp]
      exact hr

theorem removeService_all (hq : q.Orderly) (hz : byte fqst 0 = 0) :
    ∃ q', Comes (fun fuel => removeService fuel q fqst) (some q') ∧ q'.smonsActive = [] ∧ (∀ c, c ∈ q'.smonsFree) ∧
      ∀ s, s ∈ q'.sinstsFree := by
  obtain ⟨q', h', hnil⟩ := hq.closeAll
  refine ⟨q', ?_, hnil⟩
  unfold removeService
  simp only [if_pos hz, h']
  exact comes_const _

structure Querier.MonitorTable (q : Querier n k H I) : Prop where
  slots : Splits q.smonsActive q.smonsFree
  distinct : ∀ c ∈ q.smonsActive, ∀ d ∈ q.smonsActive,
    plainLabels (q.smons c).fqst = plainLabels (q.smons d).fqst → c = d
  add : ∀ fqst, WfName fqst → ∃ q' status, Comes (fun fuel => addServiceRet fuel q fqst) (some (q', status)) ∧
    Enrolled q fqst q' status
  remove : ∀ fqst, WfName fqst → plainLabels fqst ≠ [] → ∃ q', Comes (fun fuel => removeService fuel q fqst) (some q') ∧
    ((∀ c ∈ q.smonsActive, plainLabels (q.smons c).fqst ≠ plainLabels fqst) → q' = q) ∧
    ∀ c ∈ q.smonsActive, plainLabels (q.smons c).fqst = plainLabels fqst → Removed q c q'
  removeAll : ∀ fqst, WfName fqst → plainLabels fqst = [] → ∃ q',
    Comes (fun fuel => removeService fuel q fqst) (some q') ∧
    q'.smonsActive = [] ∧ (∀ c, c ∈ q'.smonsFree) ∧ ∀ s, s ∈ q'.sinstsFree

def Event.Typed : Event → Prop
  | .monitor fqst => WfName fqst
  | .unmonitor fqst => WfName fqst
  | .response _ _ _ => True
  | .prepare _ => True

/-- The states that are reached with such commands, among any other events. -/
inductive TypedRun (G : Guard n k H I) : Querier n k H I → Prop where
  | launch : TypedRun G (queryLaunch n k H I)
  | step {fuel : Nat} {q q' : Querier n k H I} {ev : Event} : TypedRun G q → ev.Typed →
      guardedStep G fuel q ev = some q' →
      TypedRun G q'

theorem Querier.Orderly.table (hq : q.Orderly) (ht : q.Typed) : q.MonitorTable := by
  refine ⟨hq.slots, ?_, fun fqst hw => addServiceRet_comes ht hw,
    fun fqst hw hne => removeService_comes hq ht hw hne, ?_⟩
  · intro c hc d hd hequal
    refine hq.distinct c hc d hd _ (ht c hc) ?_
    rw [hequal]
    exact ht d hd
  · intro fqst hw hnil
    exact removeService_all hq ((byte_zero_iff hw).mpr hnil)

end closing

end commands

section lists
variable {q : Querier n k}

theorem runAll_closeMonitor {cs : List (Fin k)} (hq : q.Held) (hcs : q.smonsActive = cs) :
    ∃ q', runAll closeMonitor cs q = some q' ∧ q'.smonsActive = [] ∧ q'.Held := by
  induction cs generalizing q with
  | nil => exact ⟨q, rfl, hcs, hq⟩
  | cons c cs ih =>
    obtain ⟨q₁, hclose, hr, hq₁⟩ := closeMonitor_removed hq (by rw [hcs]; exact mem_cons_self ..)
    have hrest : q₁.smonsActive = cs := by rw [hr.active, hcs, erase_cons_head]
    obtain ⟨q', h', hnil, hq'⟩ := ih hq₁ hrest
    exact ⟨q', runAll_cons_eq_some.mpr ⟨q₁, hclose, h'⟩, hnil, hq'⟩

theorem Querier.Held.all_free (hq : q.Held) (hnil : q.smonsActive = []) :
    (∀ c, c ∈ q.smonsFree) ∧ ∀ s, s ∈ q.sinstsFree := by
  constructor
  · intro c
    apply (hq.owners.off_iff c).mpr
    rw [hnil]
    exact not_mem_nil
  · intro s
    by_contra hs
    obtain ⟨c, hc, -⟩ := hq.owned s hs
    rw [hnil] at hc
    cases hc

theorem Querier.Held.orderly (hq : q.Held) (hd : q.Distinct) : q.Orderly where
  slots := hq.owners
  distinct := hd
  close c hc := by
    obtain ⟨q', hclose, hr, -⟩ := closeMonitor_removed hq hc
    exact ⟨q', hclose, hr⟩
  closeAll := by
    obtain ⟨q', hq', hnil, hheld⟩ := runAll_closeMonitor hq rfl
    exact ⟨q', hq', hnil, hheld.all_free hnil⟩

theorem Event.Typed.monitor {ev : Event} (h : ev.Typed) : ∀ fqst, ev = .monitor fqst → WfName fqst := by
  rintro fqst rfl
  exact h

theorem TypedRun.run {H I : Type} [AList n H I] {G : Guard n k H I} {q : Querier n k H I}
    (h : TypedRun G q) : Run G q := by
  induction h with
  | launch => exact .launch
  | step _ _ hstep ih => exact .step ih hstep

theorem TypedRun.runAll {H I : Type} [AList n H I] {G : Guard n k H I} {q q' : Querier n k H I}
    {fuel : Nat} {evs : List Event}
    (h : TypedRun G q) (hevs : ∀ ev ∈ evs, ev.Typed)
    (hrun : Lib.runAll (guardedStep G fuel) evs q = some q') : TypedRun G q' := by
  induction evs generalizing q with
  | nil =>
    cases hrun
    exact h
  | cons ev evs ih =>
    obtain ⟨hev, hevs⟩ := forall_mem_cons.mp hevs
    obtain ⟨q₁, hstep, hrun⟩ := runAll_cons_eq_some.mp hrun
    exact ih (.step h hev hstep) hevs hrun

theorem typed_of_guardedStep {G : Guard n k} {q' : Querier n k} {fuel : Nat} {ev : Event} (hq : q.Held) (ht : q.Typed)
    (hev : ev.Typed) (h : guardedStep G fuel q ev = some q') : q'.Typed := by
  have hkept := keeps_of_reflTransGen (P := fun q => q.Held ∧ q.Typed) ?_
    (step_effects hev.monitor (step_of_guardedStep h)) ⟨hq, ht⟩
  · exact hkept.2
  · intro q q' he hq
    exact ⟨he.held hq.1, (he.monitored hq.1).typed hq.2⟩

theorem wfName_httpType : WfName httpType := by
  have h : decodeName (.plain httpType) 10 0 = some (plainLabels httpType) := by decide +kernel
  exact expands_of_decodeName h

end lists

end Mdns
