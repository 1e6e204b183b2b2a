import Mdns.Query.Alert
import Mdns.Query.Induct
import Mdns.Query.UpToDate

/-!
# Where an instance stands

An instance with an address is on the list of an A record that has the same address. The single
effects do not keep this, since an instance is told of its address only after its A record has it.
-/
namespace Mdns
open Lib List Option
open Function (update_of_ne update_self)

variable {n k : Nat} {q q₁ q' : Querier n k} {s t a : Fin n} {fuel elapsed : Nat} {m m' : Message} {r : Resource}

section apart
variable {ret : Int} {e : SinstEvent n}

/-- A call that is not about the slot: its entry stays, it stays on the lists that it is on and
comes to no other, and what the user hears is of other slots. -/
structure Apart (q : Querier n k) (s : Fin n) (q' : Querier n k) : Prop where
  entry : q'.sinsts s = q.sinsts s
  free : s ∈ q'.sinstsFree ↔ s ∈ q.sinstsFree
  listed : ∀ a, a ∉ q.arecsFree → s ∈ (q.arecs a).sinsts → a ∉ q'.arecsFree ∧ s ∈ (q'.arecs a).sinsts ∧
    (q'.arecs a).ipaddr = (q.arecs a).ipaddr ∧ (q'.arecs a).fqdn = (q.arecs a).fqdn
  only : ∀ a, s ∈ (q'.arecs a).sinsts → s ∈ (q.arecs a).sinsts
  log : ∃ new, q'.log = new ++ q.log ∧ ∀ e ∈ new, e.slot ≠ some s

theorem SameTables.apart (h : SameTables q q') (s : Fin n) : Apart q s q' where
  entry := by rw [h.sinsts]
  free := by rw [h.free]
  listed a ha hs := by
    rw [h.arecsFree, h.arecs]
    exact ⟨ha, hs, rfl, rfl⟩
  only a hs := by
    rw [h.arecs] at hs
    exact hs
  log := ⟨[], h.log, nofun⟩

theorem Apart.refl (q : Querier n k) (s : Fin n) : Apart q s q := (SameTables.refl q).apart s

theorem Apart.trans (h : Apart q s q₁) (h' : Apart q₁ s q') : Apart q s q' where
  entry := h'.entry.trans h.entry
  free := h'.free.trans h.free
  listed a ha hs := by
    obtain ⟨ha₁, hs₁, hip, hname⟩ := h.listed a ha hs
    obtain ⟨ha₂, hs₂, hip', hname'⟩ := h'.listed a ha₁ hs₁
    exact ⟨ha₂, hs₂, hip'.trans hip, hname'.trans hname⟩
  only a hs := h.only a (h'.only a hs)
  log := by
    obtain ⟨new, hlog, hnew⟩ := h.log
    obtain ⟨new', hlog', hnew'⟩ := h'.log
    refine ⟨new' ++ new, by rw [hlog', hlog, append_assoc], ?_⟩
    intro e he
    rcases mem_append.mp he with he | he
    · exact hnew' e he
    · exact hnew e he

theorem apart_setSinst (i : ServiceInstance n k) (ht : s ≠ t) : Apart q s (q.setSinst t i) where
  entry := setSinst_others q t i ht
  free := Iff.rfl
  listed _ ha hs := ⟨ha, hs, rfl, rfl⟩
  only _ hs := hs
  log := ⟨[], rfl, nofun⟩

theorem apart_callbackOn {status : Status} (h : callbackOn q t status = some q') (ht : s ≠ t) : Apart q s q' := by
  obtain ⟨c, -, rfl⟩ := callbackOn_eq_some.mp h
  refine ⟨rfl, Iff.rfl, fun _ ha hs => ⟨ha, hs, rfl, rfl⟩, fun _ hs => hs, [_], rfl, ?_⟩
  intro e he hslot
  rw [mem_singleton.mp he] at hslot
  exact ht (some.inj hslot).symm

theorem apart_setArec {b : ARec n} (hlist : b.sinsts = (q.arecs a).sinsts) (hs : s ∉ (q.arecs a).sinsts) :
    Apart q s (q.setArec a b) where
  entry := rfl
  free := Iff.rfl
  listed d hd hmem := by
    have hda : d ≠ a := by
      rintro rfl
      exact hs hmem
    rw [setArec_others q a b hda]
    exact ⟨hd, hmem, rfl, rfl⟩
  only d hmem := by
    by_cases hda : d = a
    · rw [hda, setArec_self, hlist] at hmem
      exact absurd hmem hs
    · rw [setArec_others q a b hda] at hmem
      exact hmem
  log := ⟨[], rfl, nofun⟩

structure SameHost (b b' : ARec n) : Prop where
  sinsts : b.sinsts = b'.sinsts
  ipaddr : b.ipaddr = b'.ipaddr
  fqdn : b.fqdn = b'.fqdn

theorem apart_retime {b : ARec n} (s : Fin n) (h : SameHost b (q.arecs a)) : Apart q s (q.setArec a b) := by
  have hsame : ∀ d, SameHost ((q.setArec a b).arecs d) (q.arecs d) := by
    intro d
    by_cases hda : d = a
    · rw [hda, setArec_self]
      exact h
    · rw [setArec_others q a b hda]
      exact ⟨rfl, rfl, rfl⟩
  refine ⟨rfl, Iff.rfl, fun d hd hs => ?_, fun d hs => ?_, [], rfl, nofun⟩
  · exact ⟨hd, (hsame d).sinsts ▸ hs, (hsame d).ipaddr, (hsame d).fqdn⟩
  · rw [(hsame d).sinsts] at hs
    exact hs

theorem Cleaned.apart (h : Cleaned q t q') (ht : s ≠ t) : Apart q s q' := by
  have hlists : ∀ a, (q'.arecs a).sinsts = unlink q.reg.host q.reg.referrers t a :=
    fun a => congrArg (fun g : Registry (Fin n) (Fin n) (Fin k) Mem => g.referrers a) h.reg
  refine ⟨h.others ht, h.freed ht, ?_, ?_, [], h.log, nofun⟩
  · intro a ha hs
    have hs' : s ∈ unlink q.reg.host q.reg.referrers t a := Registry.mem_unlink ht hs
    refine ⟨?_, hlists a ▸ hs', ?_, ?_⟩
    · have hspare : q'.arecsFree = (q.reg.host t).elim q.arecsFree
          (fun b => if (q.reg.referrers b).erase t = [] then b :: q.arecsFree else q.arecsFree) :=
        congrArg Registry.spare h.reg
      rw [hspare]
      cases hhost : q.reg.host t with
      | none => exact ha
      | some b =>
        rw [elim_some]
        split
        · next hnil =>
          -- a record that is given up has nobody on its list
          rw [mem_cons, not_or]
          refine ⟨?_, ha⟩
          rintro rfl
          have hstill : s ∈ (q.reg.referrers a).erase t := (mem_erase_of_ne ht).mpr hs
          rw [hnil] at hstill
          cases hstill
        · exact ha
    · rw [h.arecs a]
    · rw [h.arecs a]
  · intro a hs
    rw [hlists a, unlink_apply] at hs
    split at hs
    · exact mem_of_mem_erase hs
    · exact hs

theorem Hosted.lists (h : Hosted q t a q' ret) (b : Fin n) :
    (q'.arecs b).sinsts = link (unlink q.reg.host q.reg.referrers t) a t b :=
  congrArg (fun g : Registry (Fin n) (Fin n) (Fin k) Mem => g.referrers b) h.reg

theorem Hosted.arecsFree (h : Hosted q t a q' ret) : q'.arecsFree = q.arecsFree := congrArg Registry.spare h.reg

theorem Hosted.apart (h : Hosted q t a q' ret) (ht : s ≠ t) : Apart q s q' := by
  refine ⟨h.others ht, by rw [h.free], ?_, ?_, [], h.log, nofun⟩
  · intro b hb hs
    have hs' : s ∈ unlink q.reg.host q.reg.referrers t b := Registry.mem_unlink ht hs
    rw [h.arecsFree, h.lists b]
    refine ⟨hb, ?_, by rw [h.arecs b], by rw [h.arecs b]⟩
    unfold link
    by_cases hba : b = a
    · rw [hba, update_self]
      exact mem_cons_of_mem t (hba ▸ hs')
    · rw [update_of_ne hba]
      exact hs'
  · intro b hs
    have hs' : s ∈ unlink q.reg.host q.reg.referrers t b := by
      rw [h.lists b] at hs
      unfold link at hs
      by_cases hba : b = a
      · rw [hba, update_self] at hs
        rw [hba]
        exact (mem_cons.mp hs).resolve_left ht
      · rw [update_of_ne hba] at hs
        exact hs
    rw [unlink_apply] at hs'
    split at hs'
    · exact mem_of_mem_erase hs'
    · exact hs'

theorem apart_enlist {free : List (Fin n)} (hfree : q.arecsFree = a :: free) (fqdn : Mem) (s : Fin n) :
    Apart q s ({ q with arecsFree := free, arecsActive := a :: q.arecsActive }.setArec a { sinsts := [], fqdn }) where
  entry := rfl
  free := Iff.rfl
  listed b hb hs := by
    rw [hfree, mem_cons, not_or] at hb
    rw [setArec_others _ a _ hb.1]
    exact ⟨hb.2, hs, rfl, rfl⟩
  only b hs := by
    by_cases hba : b = a
    · rw [hba, setArec_self] at hs
      cases hs
    · rw [setArec_others _ a _ hba] at hs
      exact hs
  log := ⟨[], rfl, nofun⟩

theorem HostsSrv.apart (h : HostsSrv fuel q t m r q' ret) (ht : s ≠ t) : Apart q s q' := by
  cases h with
  | found _ hh => exact hh.apart ht
  | full _ _ => exact apart_setSinst _ ht
  | fresh _ hfree _ hh => exact (apart_enlist hfree _ s).trans (hh.apart ht)

theorem TakesSrv.apart (h : TakesSrv fuel q t m r elapsed q' ret) (ht : s ≠ t) : Apart q s q' := by
  obtain ⟨q₁, moved, hh, rfl, -⟩ := h.hosts
  exact ((apart_setSinst _ ht).trans (hh.apart ht)).trans (apart_setSinst _ ht)

theorem Ages.apart (h : Ages q t elapsed q' ret) (ht : s ≠ t) : Apart q s q' := by
  cases h with
  | waits _ => exact apart_setSinst _ ht
  | @asks tx _ _ _ =>
    exact ((⟨rfl, rfl, rfl, rfl, rfl⟩ : SameTables q { q with tx }).apart s).trans (apart_setSinst _ ht)
  | crowded _ _ _ => exact apart_setSinst _ ht
  | expires _ _ hc => exact (apart_setSinst _ ht).trans ((cleaned_of_cleanupSinst hc).apart ht)

theorem Reacts.apart {changes : Int} (h : Reacts q t changes elapsed e q') (ht : s ≠ t) : Apart q s q' := by
  cases h with
  | lost _ hc => exact (cleaned_of_cleanupSinst hc).apart ht
  | lostShown _ hc hcb => exact ((cleaned_of_cleanupSinst hc).apart ht).trans (apart_callbackOn hcb ht)
  | aged ha _ => exact (ages_of_applyElapsed ha).apart ht
  | asked _ ha => exact (((ages_of_applyElapsed ha).apart ht).trans (apart_setSinst _ ht)).trans (apart_setSinst _ ht)
  | expired _ ha => exact (ages_of_applyElapsed ha).apart ht
  | expiredShown _ ha hcb => exact ((ages_of_applyElapsed ha).apart ht).trans (apart_callbackOn hcb ht)
  | quiet _ => exact .refl _ s
  | pending _ _ _ => exact apart_setSinst _ ht
  | gone _ _ hcb => exact apart_callbackOn hcb ht
  | discovered _ _ _ hcb => exact (apart_callbackOn hcb ht).trans (apart_setSinst _ ht)
  | updated _ _ _ _ hcb => exact (apart_callbackOn hcb ht).trans (apart_setSinst _ ht)

theorem updateSinst_apart (h : updateSinst fuel q t e elapsed = some (q', ret)) (ht : s ≠ t) : Apart q s q' := by
  obtain ⟨q₁, changes, hc, hr⟩ := updateSinst_eq_some h
  refine Apart.trans ?_ (hr.apart ht)
  unfold sinstChanges at hc
  split at hc
  · rcases updateSrv_eq_some hc with ⟨-, hclean, -⟩ | htakes
    · exact (cleaned_of_cleanupSinst hclean).apart ht
    · exact htakes.apart ht
  · obtain ⟨i, ret, -, hc⟩ := bind_pair_eq_some.mp hc
    cases hc
    exact apart_setSinst i ht
  · exact (hosted_of_setArec hc).apart ht
  · cases hc
    exact .refl _ s
  · cases hc
    exact .refl _ s

theorem alertSinst_apart (h : alertSinst e q t = some q') (ht : s ≠ t) : Apart q s q' := by
  obtain ⟨⟨q₁, ret⟩, hu, rfl⟩ := map_eq_some_iff.mp h
  exact updateSinst_apart hu ht

end apart

section standing
variable {ret : Int}

/-- The slot is on the list of an A record that is in use and has its address. -/
def Querier.Stands (q : Querier n k) (s a : Fin n) : Prop :=
  a ∉ q.arecsFree ∧ s ∈ (q.arecs a).sinsts ∧ (q.arecs a).ipaddr = (q.sinsts s).ipaddr

def Querier.Stood (q : Querier n k) (s : Fin n) : Prop :=
  s ∉ q.sinstsFree → ((q.sinsts s).state = .clean ∨ (q.sinsts s).hasA = true) → ∃ a, q.Stands s a

theorem Apart.stands (h : Apart q s q') (hs : q.Stands s a) : q'.Stands s a := by
  obtain ⟨ha, hmem, hip⟩ := hs
  obtain ⟨ha', hmem', hip', -⟩ := h.listed a ha hmem
  refine ⟨ha', hmem', ?_⟩
  rw [hip', hip, h.entry]

theorem Apart.stood (h : Apart q s q') (hs : q.Stood s) : q'.Stood s := by
  intro hused hst
  rw [h.entry] at hst
  obtain ⟨a, ha⟩ := hs (fun hfree => hused (h.free.mpr hfree)) hst
  exact ⟨a, h.stands ha⟩

theorem Querier.Stood.set {i : ServiceInstance n k} (hs : q.Stood s) (hip : i.ipaddr = (q.sinsts s).ipaddr)
    (hst : i.state = .clean → (q.sinsts s).state = .clean ∨ (q.sinsts s).hasA = true)
    (hA : i.hasA = true → (q.sinsts s).state = .clean ∨ (q.sinsts s).hasA = true) : (q.setSinst s i).Stood s := by
  intro hused hor
  rw [setSinst_self] at hor
  obtain ⟨a, ha, hmem, haddr⟩ := hs hused (hor.elim hst hA)
  refine ⟨a, ha, hmem, ?_⟩
  rw [setSinst_self, hip]
  exact haddr

theorem Querier.Stood.retime {b : ARec n} (hs : q.Stood s) (h : SameHost b (q.arecs a)) : (q.setArec a b).Stood s :=
  (apart_retime s h).stood hs

theorem stood_of_free (h : s ∈ q.sinstsFree) : q.Stood s := fun hused => absurd h hused

theorem Cleaned.stood (h : Cleaned q t q') (hq : ∀ s, q.Stood s) (s : Fin n) : q'.Stood s := by
  by_cases hst : s = t
  · rw [hst]
    apply stood_of_free
    rw [h.free]
    exact mem_cons_self ..
  · exact (h.apart hst).stood (hq s)

theorem Querier.Stood.callback {status : Status} (hs : q.Stood s)
    (h : callbackOn q t status = some q') : q'.Stood s := by
  obtain ⟨c, -, rfl⟩ := callbackOn_eq_some.mp h
  exact hs

theorem updating_ne_clean : SinstState.updating ≠ .clean := by decide

/-- What is left for the reaction to news: with an address the slot stands, and without a change
it does if it did before. -/
theorem Reacts.stood_got {u : News n} {changes : Int} (h : Reacts q s changes elapsed (.got u) q')
    (hA : s ∉ q.sinstsFree → (q.sinsts s).hasA = true → ∃ a, q.Stands s a)
    (hs : changes = 0 ∨ changes = -1 → q.Stood s) :
    q'.Stood s := by
  have hready : (q.sinsts s).isReady = true → (q.sinsts s).hasA = true := fun h => (Bool.and_eq_true_iff.mp h).1
  -- a state that is not clean leaves the address only
  have hunclean : (q.sinsts s).state ≠ .clean → q.Stood s := fun hne hused hor => hA hused (hor.resolve_left hne)
  cases h with
  | quiet hquiet =>
    rcases hquiet with hzero | ⟨hinit, -⟩ | ⟨-, -, hne⟩
    · exact hs (.inl hzero)
    · exact hunclean (by rw [hinit]; decide)
    · exact hunclean hne
  | pending _ _ _ =>
    intro hused hor
    rw [Querier.setState, setSinst_self] at hor
    obtain ⟨a, ha, hmem, hip⟩ := hA hused (hor.resolve_left updating_ne_clean)
    exact ⟨a, ha, hmem, by rw [Querier.setState, setSinst_self]; exact hip⟩
  | gone _ hneg hcb => exact (hs (.inr hneg)).callback hcb
  | discovered _ _ hr hcb =>
    obtain ⟨c, -, rfl⟩ := callbackOn_eq_some.mp hcb
    intro hused _
    obtain ⟨a, ha, hmem, hip⟩ := hA hused (hready hr)
    exact ⟨a, ha, hmem, by rw [Querier.setState, setSinst_self]; exact hip⟩
  | updated _ _ _ hr hcb =>
    obtain ⟨c, -, rfl⟩ := callbackOn_eq_some.mp hcb
    intro hused _
    obtain ⟨a, ha, hmem, hip⟩ := hA hused (hready hr)
    exact ⟨a, ha, hmem, by rw [Querier.setState, setSinst_self]; exact hip⟩

theorem Hosted.mem (h : Hosted q s a q' ret) : s ∈ (q'.arecs a).sinsts := by
  rw [h.lists a, link, update_self]
  exact mem_cons_self ..

theorem Hosted.stands (h : Hosted q s a q' ret) (ha : a ∉ q.arecsFree) (hA : (q'.sinsts s).hasA = true) :
    q'.Stands s a := by
  refine ⟨h.arecsFree ▸ ha, h.mem, ?_⟩
  rw [h.entry] at hA
  rw [h.entry, h.arecs a]
  unfold takeAddress at hA ⊢
  split at hA
  · next hres => simp only [if_pos hres]
  · cases hA

theorem Hosted.stays (h : Hosted q s a q' ret) {b : Fin n} (hret : ret = 0) (hs : q.Stands s b) :
    q'.Stands s b := by
  obtain ⟨hip, harec, -⟩ := h.sameView hret
  obtain ⟨hb, hmem, haddr⟩ := hs
  refine ⟨h.arecsFree ▸ hb, ?_, ?_⟩
  · by_cases hba : b = a
    · rw [hba]
      exact h.mem
    · have hnot : ¬ q.reg.host s = some b := by
        intro hb
        have hb : (q.sinsts s).arec = some b := hb
        rcases harec with hnone | hsome
        · rw [hnone] at hb
          cases hb
        · rw [hsome] at hb
          exact hba (some.inj hb).symm
      rw [h.lists b, link, update_of_ne hba, unlink_apply, if_neg hnot]
      exact hmem
  · rw [h.arecs b, hip]
    exact haddr

theorem Hosted.stood (h : Hosted q s a q' ret) (ha : a ∉ q.arecsFree) (hret : ret = 0) (hs : q.Stood s) :
    q'.Stood s := by
  intro hused hor
  by_cases hA : (q'.sinsts s).hasA = true
  · exact ⟨a, h.stands ha hA⟩
  · have hclean : (q.sinsts s).state = .clean := by
      have hst := hor.resolve_right hA
      rw [h.entry] at hst
      exact (takeAddress_data (q.sinsts s) (q.arecs a)).2.2.2.1 ▸ hst
    obtain ⟨b, hb⟩ := hs (h.free ▸ hused) (.inl hclean)
    exact ⟨b, h.stays hret hb⟩

theorem HostsSrv.stood (h : HostsSrv fuel q s m r q' ret) (hq : Splits q.arecsActive q.arecsFree) (hs : q.Stood s) :
    (s ∉ q'.sinstsFree → (q'.sinsts s).hasA = true → ∃ a, q'.Stands s a) ∧ (ret = 0 → q'.Stood s) := by
  cases h with
  | @found a _ _ hfind hh =>
    have ha : a ∉ q.arecsFree := fun ha => (hq.off_iff a).mp ha (findFirst_mem hfind).1
    exact ⟨fun _ hA => ⟨a, hh.stands ha hA⟩, fun hret => hh.stood ha hret hs⟩
  | full _ _ =>
    have hkeep : (q.setSinst s { q.sinsts s with arec := none }).Stood s := hs.set rfl .inl .inr
    exact ⟨fun hused hA => hkeep hused (.inr hA), fun _ => hkeep⟩
  | @fresh a free fqdn _ _ _ _ hfree _ hh =>
    have ha : a ∉ free := by
      have hnodup := hq.offNodup
      rw [hfree] at hnodup
      exact (nodup_cons.mp hnodup).1
    exact ⟨fun _ hA => ⟨a, hh.stands ha hA⟩, fun hret => hh.stood ha hret ((apart_enlist hfree fqdn s).stood hs)⟩

theorem TakesSrv.stood (h : TakesSrv fuel q s m r elapsed q' ret) (hq : Splits q.arecsActive q.arecsFree)
    (hs : q.Stood s) : (s ∉ q'.sinstsFree → (q'.sinsts s).hasA = true → ∃ a, q'.Stands s a) ∧
      (ret = 0 → q'.Stood s) := by
  obtain ⟨q₁, moved, hh, rfl, hret⟩ := h.hosts
  have hport : (q.setSinst s { q.sinsts s with port := srvPort m.data r }).Stood s := hs.set rfl .inl .inr
  obtain ⟨hA, hzero⟩ := hh.stood hq hport
  constructor
  · intro hused haddr
    rw [setSinst_self] at haddr
    obtain ⟨a, ha, hmem, hip⟩ := hA hused haddr
    exact ⟨a, ha, hmem, by rw [setSinst_self]; exact hip⟩
  · intro h0
    rw [h0] at hret
    exact (hzero (changes_eq_zero hret hh.ret_nonneg).2).set rfl .inl .inr

theorem updateSinst_srv_stood (hq : Splits q.arecsActive q.arecsFree)
    (h : updateSinst fuel q s (.got (.srv m r)) elapsed = some (q', ret)) (hs : q.Stood s) : q'.Stood s := by
  obtain ⟨q₁, changes, hc, hr⟩ := updateSinst_eq_some h
  rcases updateSrv_eq_some hc with ⟨-, hclean, -⟩ | htakes
  · have hfree : s ∈ q₁.sinstsFree := by
      rw [(cleaned_of_cleanupSinst hclean).free]
      exact mem_cons_self ..
    exact hr.stood_got (fun hused => absurd hfree hused) (fun _ => stood_of_free hfree)
  · obtain ⟨hA, hzero⟩ := htakes.stood hq hs
    refine hr.stood_got hA ?_
    rintro (h0 | hneg)
    · exact hzero h0
    · obtain ⟨_, _, _, -, hflag⟩ := htakes.hosts
      exact absurd (hflag.symm.trans hneg) (flag_ne _)

theorem updateSinst_txt_stood (h : updateSinst fuel q s (.got (.txt m r)) elapsed = some (q', ret))
    (hs : q.Stood s) : q'.Stood s := by
  obtain ⟨q₁, changes, hc, hr⟩ := updateSinst_eq_some h
  obtain ⟨i, ret, hi, hc⟩ := bind_pair_eq_some.mp hc
  cases hc
  have hset : (q.setSinst s i).Stood s := by
    rcases updateTxt_eq_some hi with ⟨rfl, -⟩ | ⟨_, _, _, rfl, -⟩
    · exact hs.set rfl .inl .inr
    · exact hs.set rfl .inl .inr
  exact hr.stood_got (fun hused hA => hset hused (.inr hA)) (fun _ => hset)

theorem updateSinst_ask_stood (h : updateSinst 0 q s .addQuestions elapsed = some (q', ret))
    (hs : q.Stood s) : q'.Stood s := by
  have hages : ∀ {p : Querier n k} {ret : Int}, Ages q s elapsed p ret → p.Stood s := by
    intro p ret ha
    have hage : (q.setSinst s ((q.sinsts s).age elapsed)).Stood s := hs.set rfl .inl .inr
    cases ha with
    | waits _ => exact hage
    | @asks tx _ _ _ => exact Querier.Stood.set (q := { q with tx }) hs rfl .inl .inr
    | crowded _ _ _ => exact hs.set rfl .inl .inr
    | expires _ _ hc =>
      apply stood_of_free
      rw [(cleaned_of_cleanupSinst hc).free]
      exact mem_cons_self ..
  obtain ⟨q₁, changes, hc, hr⟩ := updateSinst_eq_some h
  cases hc
  cases hr with
  | aged ha _ => exact hages (ages_of_applyElapsed ha)
  | @asked q₁ _ ha =>
    have h₁ := hages (ages_of_applyElapsed ha)
    have h₂ : (q₁.setSinst s { q₁.sinsts s with hasSrv := false }).Stood s := h₁.set rfl .inl .inr
    exact h₂.set rfl (fun hst => absurd hst updating_ne_clean) .inr
  | expired _ ha => exact hages (ages_of_applyElapsed ha)
  | expiredShown _ ha hcb => exact (hages (ages_of_applyElapsed ha)).callback hcb

theorem alertSinst_stood (h : alertSinst (.got (.arec a)) q s = some q') (ha : a ∉ q.arecsFree)
    (hres : (q.arecs a).state = .resolved) : q'.Stood s := by
  obtain ⟨q₁, changes, hc, hr⟩ := alertSinst_eq_some h
  have hh := hosted_of_setArec hc
  have hA : (q₁.sinsts s).hasA = true := by
    rw [hh.entry]
    simp only [takeAddress, if_pos hres]
  exact hr.stood_got (fun _ hA => ⟨a, hh.stands ha hA⟩) (fun _ _ _ => ⟨a, hh.stands ha hA⟩)

theorem alertSinst_frame (h : alertSinst (.got (.arec a)) q s = some q') :
    q'.arecsFree = q.arecsFree ∧ (q'.arecs a).state = (q.arecs a).state := by
  have hal := (alerted_of_alertSinst h).arecs a
  obtain ⟨q₁, changes, hc, hr⟩ := alertSinst_eq_some h
  obtain ⟨-, -, -, hfree, -⟩ := hr.got_frame
  rw [hal, hfree, (hosted_of_setArec hc).arecsFree]
  exact ⟨rfl, rfl⟩

theorem alertAll_stood {slots : List (Fin n)} (h : runAll (alertSinst (.got (.arec a))) slots q = some q')
    (ha : a ∉ q.arecsFree) (hres : (q.arecs a).state = .resolved) (hs : s ∈ slots ∨ q.Stood s) : q'.Stood s := by
  induction slots generalizing q with
  | nil =>
    cases h
    exact hs.resolve_left not_mem_nil
  | cons t slots ih =>
    obtain ⟨q₁, hfirst, h⟩ := runAll_cons_eq_some.mp h
    obtain ⟨hfree, hstate⟩ := alertSinst_frame hfirst
    refine ih h (hfree ▸ ha) (hstate.trans hres) ?_
    by_cases hst : s = t
    · rw [hst]
      exact .inr (alertSinst_stood hfirst ha hres)
    · exact hs.imp (fun hmem => (mem_cons.mp hmem).resolve_left hst) (fun hs => (alertSinst_apart hfirst hst).stood hs)

theorem evictArec_stood (h : evictArec q a = some q') (hq : ∀ s, q.Stood s) (s : Fin n) : q'.Stood s := by
  obtain ⟨q₁, h₁, -, rfl⟩ := evictArec_eq_some h
  refine Querier.Stood.retime (runAll_keeps (I := fun q : Querier n k => ∀ s, q.Stood s) ?_ h₁ hq s) ⟨rfl, rfl, rfl⟩
  intro q t q' hs hq
  obtain ⟨q₁, changes, hc, hr⟩ := alertSinst_eq_some hs
  cases hc
  cases hr with
  | lost _ hc => exact (cleaned_of_cleanupSinst hc).stood hq
  | lostShown _ hc hcb => exact fun s => ((cleaned_of_cleanupSinst hc).stood hq s).callback hcb

theorem updateArecRx_stood (hsplit : Splits q.arecsActive q.arecsFree) (ha : a ∈ q.arecsActive)
    (h : updateArecRx q a m r = some q') (hq : ∀ s, q.Stood s) (s : Fin n) : q'.Stood s := by
  have hfree : a ∉ q.arecsFree := fun hfree => (hsplit.off_iff a).mp hfree ha
  rcases updateArecRx_eq_some h with ⟨-, h⟩ | ⟨-, q₁, h₁, rfl⟩
  · exact evictArec_stood h hq s
  · suffices hq₁ : q₁.Stood s from hq₁.retime ⟨rfl, rfl, rfl⟩
    rw [alertIp_eq] at h₁
    split at h₁
    · cases h₁
      exact (hq s).retime ⟨rfl, rfl, rfl⟩
    · rw [setArec_self, setArec_setArec] at h₁
      refine alertAll_stood h₁ hfree (by rw [setArec_self]) ?_
      -- the address is new, so a slot stands with the record only after its alert
      by_cases hs : s ∈ (q.arecs a).sinsts
      · exact .inl hs
      · exact .inr ((apart_setArec
          (b := { q.arecs a with state := .resolved, ipaddr := getUint32 m.data r.rdata }) rfl hs).stood (hq s))

theorem ArecTurn.stood (h : ArecTurn q a elapsed q' ret) (hq : ∀ s, q.Stood s) (s : Fin n) : q'.Stood s := by
  have hask : ∀ r : ARec n, SameHost r (q.arecs a) → (askArec q a r).Stood s := by
    intro r hr
    exact Querier.Stood.retime (q := { q with tx := (mdnsAddQuestion q.tx r.fqdn tA cIn).getD q.tx }) (hq s) hr
  cases h with
  | launches _ => exact hask _ ⟨rfl, rfl, rfl⟩
  | waits _ _ => exact (hq s).retime ⟨rfl, rfl, rfl⟩
  | retries _ _ _ => exact hask _ ⟨rfl, rfl, rfl⟩
  | refreshes _ _ => exact hask _ ⟨rfl, rfl, rfl⟩
  | evicts _ _ _ hevict => exact evictArec_stood hevict (fun t => (hq t).retime ⟨rfl, rfl, rfl⟩) s

theorem TakesPtr.stood {ptr : Resource} (h : TakesPtr fuel elapsed q m ptr q' m') (hq : ∀ s, q.Stood s) (s : Fin n) :
    q'.Stood s := by
  -- a slot as a PTR record makes it has no address
  have hblank : ∀ (p : Querier n k) (t : Fin n) (i : ServiceInstance n k), i.state = .init → i.hasA = false →
      (s ≠ t → p.Stood s) → (p.setSinst t i).Stood s := by
    intro p t i hst hA hp
    by_cases hst' : s = t
    · rw [hst']
      intro _ hor
      rw [setSinst_self, hst, hA] at hor
      rcases hor with hor | hor <;> cases hor
    · exact (apart_setSinst i hst').stood (hp hst')
  cases h with
  | ignored _ => exact hq s
  | goodbye _ _ _ hbye hclean =>
    refine (cleaned_of_cleanupSinst hclean).stood ?_ s
    unfold sayGoodbye at hbye
    split at hbye
    · cases hbye
      exact hq
    · exact fun t => (hq t).callback hbye
  | @renewed c t _ _ _ =>
    by_cases hst : s = t
    · rw [hst]
      exact (hq t).set rfl .inl .inr
    · exact (apart_setSinst _ hst).stood (hq s)
  | failed _ _ _ _ => exact hblank _ _ _ rfl rfl (fun _ => hq s)
  | @adopted c t free i _ _ hfree hinfo =>
    obtain ⟨name, _, _, _, _, -, rfl⟩ := copyServinfo_eq_some hinfo
    refine hblank _ _ _ rfl rfl ?_
    intro hst hused hor
    refine hq s ?_ hor
    rw [hfree, mem_cons, not_or]
    exact ⟨hst, hused⟩
  | unheard _ _ _ _ => exact hq s
  | overflowed _ _ _ _ hover =>
    rcases overflow_eq_some hover with rfl | ⟨report, -, -, -, rfl⟩
    · exact hq s
    · exact hq s

theorem keptByCalls_stood (G : Guard n k) : KeptByCalls G (fun q => ∀ s, q.Stood s) where
  same h hq s := (h.apart s).stood (hq s)
  clean h hq := (cleaned_of_cleanupSinst h).stood hq
  ptr _ h hq := h.stood hq
  txt {_ _ _ _ _ _ t _} _ _ h hq s := by
    by_cases hst : s = t
    · rw [hst]
      exact updateSinst_txt_stood h (hq t)
    · exact (updateSinst_apart h hst).stood (hq s)
  srv {_ _ _ _ _ _ t _} ht _ h hq s := by
    by_cases hst : s = t
    · rw [hst]
      exact updateSinst_srv_stood ht.held.hosts h (hq t)
    · exact (updateSinst_apart h hst).stood (hq s)
  a ht ha _ h hq := updateArecRx_stood ht.held.hosts ha h hq
  turn _ h hq := h.stood hq
  ask {_ _ _ t _} _ h hq s := by
    by_cases hst : s = t
    · rw [hst]
      exact updateSinst_ask_stood h (hq t)
    · exact (updateSinst_apart h hst).stood (hq s)

/-- In every run, a slot in use that is clean or has an address is on the list of an A record with
its address. -/
theorem Run.stood {G : Guard n k} (h : Run G q) (s : Fin n) : q.Stood s :=
  Run.keeps_calls (keptByCalls_stood G) (fun _ => stood_of_free (by simp [queryLaunch])) h s

end standing

end Mdns
