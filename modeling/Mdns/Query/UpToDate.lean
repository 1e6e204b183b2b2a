import Mdns.Query.Induct

/-!
# What the user knows

The querier reports a change only while the instance is ready, and forgets that there was one: when
the missing record comes back and changes nothing itself, the user is not told. `informed` excludes
this by the record that completes the instance, `heeded` by the change, which has to be taken while
the instance is ready.
-/
namespace Mdns
open Lib List Option

variable {n k : Nat}

def Querier.lastTold (q : Querier n k) (s : Fin n) : Option (Report n) :=
  q.log.find? (fun r => decide (r.slot = some s ∧ (r.status = .discovered ∨ r.status = .updated)))

def Querier.knows (q : Querier n k) (s : Fin n) : Bool :=
  (q.lastTold s).any (fun r => decide (r.fqsn = (q.sinsts s).fqsn ∧ r.port = (q.sinsts s).port ∧
    r.ipaddr = (q.sinsts s).ipaddr ∧ r.keyvals = (q.sinsts s).keyvals))

/-- The user knows the data of a shown instance, `always` or while it is ready. -/
def Querier.Agrees (always : Prop) (q : Querier n k) (s : Fin n) : Prop :=
  (q.sinsts s).state ≠ .init → (always ∨ (q.sinsts s).isReady = true) → q.knows s = true

section guards
variable (m : Message) (q : Querier n k) (r : Resource)

/-- The record finds the instance's address as it was, or no place for its host at all. -/
def sameAddress (fuel : Nat) (s : Fin n) : Bool :=
  match findArec fuel q m (srvTarget r) with
  | some (some a) => decide (((q.sinsts s).arec = none ∨ (q.sinsts s).arec = some a) ∧
      (q.arecs a).state = .resolved ∧ (q.arecs a).ipaddr = (q.sinsts s).ipaddr)
  | some none => q.arecsFree.isEmpty && (q.sinsts s).hasA
  | none => false

/-- An SRV record that changes nothing comes for an instance whose data the user knows. -/
def srvKnown (fuel : Nat) (s : Fin n) : Bool :=
  decide (r.ttl ≠ 0 → (q.sinsts s).state ≠ .init → (q.sinsts s).port = srvPort m.data r →
    sameAddress m q r fuel s = true → q.knows s = true)

/-- So does an A record whose address is new to the record, but not to the instance. -/
def aKnown (a : Fin n) : Bool :=
  decide (r.ttl ≠ 0 → (q.arecs a).ipaddr ≠ getUint32 m.data r.rdata → ∀ s ∈ (q.arecs a).sinsts,
    (q.sinsts s).ipaddr = getUint32 m.data r.rdata → ((q.sinsts s).arec = none ∨ (q.sinsts s).arec = some a) →
    (q.sinsts s).hasSrv = true → (q.sinsts s).state ≠ .init → q.knows s = true)

/-- What `update_sinst` counts as a change leaves the instance ready, unless it is not shown yet. -/
def heeds (fuel : Nat) (s : Fin n) (u : News n) : Bool :=
  (sinstChanges fuel q s (.got u) 0).all fun x =>
    decide ((x.1.sinsts s).state = .init ∨ x.2 ≤ 0 ∨ (x.1.sinsts s).isReady = true)

/-- An address that is new to the record comes when no shown instance waits for its SRV record. -/
def aHeeded (a : Fin n) : Bool :=
  decide (r.ttl ≠ 0 → (q.arecs a).ipaddr ≠ getUint32 m.data r.rdata →
    ∀ s ∈ (q.arecs a).sinsts, (q.sinsts s).state = .init ∨ (q.sinsts s).hasSrv = true)

end guards

variable {q q₁ q' : Querier n k} {s a : Fin n} {always : Prop}

/-- A call about one slot: the others and what was told of them stay as they were. -/
structure Beside (q : Querier n k) (s : Fin n) (q' : Querier n k) : Prop where
  others : ∀ t, t ≠ s → q'.sinsts t = q.sinsts t
  told : ∀ t, t ≠ s → q'.lastTold t = q.lastTold t

theorem Beside.trans (h : Beside q s q₁) (h' : Beside q₁ s q') : Beside q s q' :=
  ⟨fun t ht => (h'.others t ht).trans (h.others t ht), fun t ht => (h'.told t ht).trans (h.told t ht)⟩

theorem knows_congr (hlast : q'.lastTold s = q.lastTold s) (hf : (q'.sinsts s).fqsn = (q.sinsts s).fqsn)
    (hp : (q'.sinsts s).port = (q.sinsts s).port) (hi : (q'.sinsts s).ipaddr = (q.sinsts s).ipaddr)
    (hk : (q'.sinsts s).keyvals = (q.sinsts s).keyvals) : q'.knows s = q.knows s := by
  unfold Querier.knows
  rw [hlast, hf, hp, hi, hk]

theorem agrees_congr (hlast : q'.lastTold s = q.lastTold s) (hs : q'.sinsts s = q.sinsts s)
    (h : q.Agrees always s) : q'.Agrees always s := by
  unfold Querier.Agrees
  rw [knows_congr hlast (by rw [hs]) (by rw [hs]) (by rw [hs]) (by rw [hs]), hs]
  exact h

theorem Beside.all (h : Beside q s q') (hs : q'.Agrees always s) (hq : ∀ t, q.Agrees always t) :
    ∀ t, q'.Agrees always t := by
  intro t
  by_cases hts : t = s
  · rw [hts]
    exact hs
  · exact agrees_congr (h.told t hts) (h.others t hts) (hq t)

/-- Entries with the same data, the first of which is shown or ready only if the second is. -/
structure SameView (i j : ServiceInstance n k) : Prop where
  fqsn : i.fqsn = j.fqsn
  port : i.port = j.port
  ipaddr : i.ipaddr = j.ipaddr
  keyvals : i.keyvals = j.keyvals
  state : i.state ≠ .init → j.state ≠ .init
  ready : i.isReady = true → j.isReady = true

theorem agrees_of_sameView (hlast : q'.lastTold s = q.lastTold s) (hv : SameView (q'.sinsts s) (q.sinsts s))
    (h : q.Agrees always s) : q'.Agrees always s := by
  intro hst hr
  rw [knows_congr hlast hv.fqsn hv.port hv.ipaddr hv.keyvals]
  exact h (hv.state hst) (hr.imp_right hv.ready)

theorem beside_setSinst (i : ServiceInstance n k) : Beside q s (q.setSinst s i) :=
  ⟨fun _ ht => setSinst_others q s i ht, fun _ _ => rfl⟩

theorem agrees_setSinst {i : ServiceInstance n k} (hv : SameView i (q.sinsts s)) (h : q.Agrees always s) :
    (q.setSinst s i).Agrees always s :=
  agrees_of_sameView (q := q) rfl (by rw [setSinst_self]; exact hv) h

section calls
variable {elapsed : Nat} {status : Status} {changes ret : Int} {fuel : Nat} {m : Message} {r : Resource}

theorem Cleaned.lastTold (h : Cleaned q s q') (t : Fin n) : q'.lastTold t = q.lastTold t := by
  rw [Querier.lastTold, h.log]
  rfl

theorem Cleaned.beside (h : Cleaned q s q') : Beside q s q' := ⟨fun _ ht => h.others ht, fun t _ => h.lastTold t⟩

theorem Cleaned.agrees (h : Cleaned q s q') (hs : q.Agrees always s) : q'.Agrees always s := by
  refine agrees_of_sameView (h.lastTold s) ?_ hs
  rw [h.entry]
  exact ⟨rfl, rfl, rfl, rfl, id, id⟩

theorem lastTold_disappeared (h : callbackOn q s .disappeared = some q') (t : Fin n) :
    q'.lastTold t = q.lastTold t := by
  obtain ⟨c, -, rfl⟩ := callbackOn_eq_some.mp h
  simp [Querier.lastTold]

theorem callbackOn_sinsts (h : callbackOn q s status = some q') : q'.sinsts = q.sinsts := by
  obtain ⟨c, -, rfl⟩ := callbackOn_eq_some.mp h
  rfl

theorem beside_disappeared (h : callbackOn q s .disappeared = some q') : Beside q s q' :=
  ⟨fun t _ => by rw [callbackOn_sinsts h], fun t _ => lastTold_disappeared h t⟩

theorem agrees_disappeared (h : callbackOn q s .disappeared = some q') {t : Fin n} (ht : q.Agrees always t) :
    q'.Agrees always t :=
  agrees_congr (lastTold_disappeared h t) (by rw [callbackOn_sinsts h]) ht

theorem beside_told (st : SinstState) (hst : status = .discovered ∨ status = .updated)
    (h : callbackOn q s status = some q₁) : Beside q s (q₁.setState s st) ∧ (q₁.setState s st).Agrees always s := by
  obtain ⟨c, -, rfl⟩ := callbackOn_eq_some.mp h
  refine ⟨⟨fun t ht => setSinst_others _ s _ ht, fun t ht => ?_⟩, fun _ _ => ?_⟩
  · have hne : ¬ s = t := fun hst => ht hst.symm
    show find? _ (_ :: q.log) = _
    rw [find?_cons_of_neg (by simp [hne])]
    rfl
  · unfold Querier.knows
    rw [Querier.setState, setSinst_self]
    show (find? _ (_ :: q.log)).any _ = true
    rw [find?_cons_of_pos (by simpa using hst)]
    simp

theorem Reacts.keeps_got {u : News n} (h : Reacts q s changes elapsed (.got u) q')
    (hq : changes ≤ 0 → q.Agrees always s)
    (hw : always → (q.sinsts s).state = .init ∨ changes ≤ 0 ∨ (q.sinsts s).isReady = true) :
    Beside q s q' ∧ q'.Agrees always s := by
  -- a change that is not reported is one that the instance is not ready for
  have hwaits : (q.sinsts s).isReady = false → q.Agrees always s := by
    intro hr hst hready
    rcases hready with halways | hready
    · rcases hw halways with hinit | hc | hready
      · exact absurd hinit hst
      · exact hq hc hst (.inl halways)
      · exact absurd (hready.symm.trans hr) (by decide)
    · exact absurd (hready.symm.trans hr) (by decide)
  cases h with
  | quiet hc =>
    refine ⟨⟨fun _ _ => rfl, fun _ _ => rfl⟩, ?_⟩
    rcases hc with h0 | ⟨hi, -⟩ | ⟨-, hr, -⟩
    · exact hq (Int.le_of_eq h0)
    · exact fun hst => absurd hi hst
    · exact hwaits hr
  | pending hst _ hr =>
    exact ⟨beside_setSinst _, agrees_setSinst ⟨rfl, rfl, rfl, rfl, fun _ => by simp [hst], id⟩ (hwaits hr)⟩
  | gone _ h1 hcb => exact ⟨beside_disappeared hcb, agrees_disappeared hcb (hq (by omega))⟩
  | discovered _ _ _ hcb => exact beside_told .clean (.inl rfl) hcb
  | updated _ _ _ _ hcb => exact beside_told .clean (.inr rfl) hcb

theorem Ages.beside (h : Ages q s elapsed q' ret) : Beside q s q' := by
  cases h with
  | waits _ => exact beside_setSinst _
  | asks _ _ _ => exact ⟨fun _ ht => setSinst_others _ s _ ht, fun _ _ => rfl⟩
  | crowded _ _ _ => exact beside_setSinst _
  | expires _ _ hc => exact (beside_setSinst _).trans (cleaned_of_cleanupSinst hc).beside

theorem Ages.agrees (h : Ages q s elapsed q' ret) (hq : q.Agrees always s) : q'.Agrees always s := by
  have hage : SameView ((q.sinsts s).age elapsed) (q.sinsts s) := ⟨rfl, rfl, rfl, rfl, id, id⟩
  have hnext : SameView ((q.sinsts s).age elapsed).reschedule (q.sinsts s) := ⟨rfl, rfl, rfl, rfl, id, id⟩
  cases h with
  | waits _ => exact agrees_setSinst hage hq
  | @asks tx _ _ _ => exact agrees_setSinst (q := { q with tx }) hnext hq
  | crowded _ _ _ => exact agrees_setSinst hnext hq
  | expires _ _ hc => exact (cleaned_of_cleanupSinst hc).agrees (agrees_setSinst hage hq)

theorem Reacts.keeps_other {e : SinstEvent n} (h : Reacts q s changes elapsed e q')
    (he : e = .lostArec ∨ e = .addQuestions) (hq : q.Agrees always s) :
    Beside q s q' ∧ q'.Agrees always s := by
  cases h with
  | lost _ hc => exact ⟨(cleaned_of_cleanupSinst hc).beside, (cleaned_of_cleanupSinst hc).agrees hq⟩
  | lostShown _ hc hcb =>
    have hcl := cleaned_of_cleanupSinst hc
    exact ⟨hcl.beside.trans (beside_disappeared hcb), agrees_disappeared hcb (hcl.agrees hq)⟩
  | aged ha _ => exact ⟨(ages_of_applyElapsed ha).beside, (ages_of_applyElapsed ha).agrees hq⟩
  | @asked q₁ hclean ha =>
    have h₁ := ages_of_applyElapsed ha
    have hstate : (q₁.sinsts s).state ≠ .init := by
      rw [h₁.state, hclean]
      decide
    refine ⟨h₁.beside.trans ((beside_setSinst _).trans (beside_setSinst _)), ?_⟩
    refine agrees_setSinst ⟨rfl, rfl, rfl, rfl, fun _ => ?_,
      id⟩ (agrees_setSinst ⟨rfl, rfl, rfl, rfl, id, ?_⟩ (h₁.agrees hq))
    · rw [setSinst_self]
      exact hstate
    · simp [ServiceInstance.isReady]
  | expired _ ha => exact ⟨(ages_of_applyElapsed ha).beside, (ages_of_applyElapsed ha).agrees hq⟩
  | expiredShown _ ha hcb =>
    have h₁ := ages_of_applyElapsed ha
    exact ⟨h₁.beside.trans (beside_disappeared hcb), agrees_disappeared hcb (h₁.agrees hq)⟩
  | _ => rcases he with he | he <;> cases he

theorem Hosted.sameView (h : Hosted q s a q' ret) (hret : ret = 0) :
    (q'.sinsts s).ipaddr = (q.sinsts s).ipaddr ∧ ((q.sinsts s).arec = none ∨ (q.sinsts s).arec = some a) ∧
    ((q'.sinsts s).hasA = true → (q.arecs a).state = .resolved ∧ (q.arecs a).ipaddr = (q.sinsts s).ipaddr) := by
  rw [h.ret] at hret
  split at hret
  · cases hret
  · next hip =>
    have hip := not_ne_iff.mp hip
    refine ⟨by rw [h.entry]; exact hip, ?_, fun hA => ?_⟩
    · cases harec : (q.sinsts s).arec with
      | none => exact .inl rfl
      | some old =>
        rw [movedFrom, harec, elim_some] at hret
        split at hret
        · cases hret
        · next hold => exact .inr (congrArg some (not_ne_iff.mp hold))
    · rw [h.entry] at hA
      unfold takeAddress at hA hip
      split at hA
      · next hres =>
        rw [if_pos hres] at hip
        exact ⟨hres, hip⟩
      · cases hA

theorem Hosted.beside (h : Hosted q s a q' ret) : Beside q s q' :=
  ⟨fun _ ht => h.others ht, fun t _ => by rw [Querier.lastTold, h.log]; rfl⟩

theorem Hosted.lastTold (h : Hosted q s a q' ret) (t : Fin n) : q'.lastTold t = q.lastTold t := by
  rw [Querier.lastTold, h.log]
  rfl

theorem takeAddress_data (i : ServiceInstance n k) (r : ARec n) :
    (takeAddress i r).fqsn = i.fqsn ∧ (takeAddress i r).port = i.port ∧ (takeAddress i r).keyvals = i.keyvals ∧
    (takeAddress i r).state = i.state ∧ (takeAddress i r).hasSrv = i.hasSrv := by
  unfold takeAddress
  split <;> exact ⟨rfl, rfl, rfl, rfl, rfl⟩

theorem Hosted.same (h : Hosted q s a q' ret) (hret : ret = 0) :
    (q'.sinsts s).state = (q.sinsts s).state ∧ q'.knows s = q.knows s := by
  obtain ⟨hip, -, -⟩ := h.sameView hret
  obtain ⟨hf, hp, hkv, hst, -⟩ := takeAddress_data (q.sinsts s) (q.arecs a)
  refine ⟨?_, knows_congr (h.lastTold s) ?_ ?_ hip ?_⟩ <;> rw [h.entry]
  · exact hst
  · exact hf
  · exact hp
  · exact hkv

/-- A host that is not a change of the instance's leaves its data as they are. -/
theorem HostsSrv.same (h : HostsSrv fuel q s m r q' ret) (hret : ret = 0) :
    (q'.sinsts s).state = (q.sinsts s).state ∧ q'.knows s = q.knows s ∧
      ((q'.sinsts s).hasA = true → sameAddress m q r fuel s = true) := by
  cases h with
  | found hfind hh =>
    obtain ⟨hst, hk⟩ := hh.same hret
    obtain ⟨-, harec, hres⟩ := hh.sameView hret
    refine ⟨hst, hk, fun hA => ?_⟩
    simp only [sameAddress, hfind, decide_eq_true_eq]
    exact ⟨harec, hres hA⟩
  | full hfind hfree =>
    refine ⟨?_, knows_congr rfl ?_ ?_ ?_ ?_, fun hA => ?_⟩
    · rw [setSinst_self]
    · rw [setSinst_self]
    · rw [setSinst_self]
    · rw [setSinst_self]
    · rw [setSinst_self]
    · rw [setSinst_self] at hA
      simp only [sameAddress, hfind, hfree, isEmpty_nil, Bool.true_and]
      exact hA
  | fresh _ _ _ hh =>
    obtain ⟨hst, hk⟩ := hh.same hret
    refine ⟨hst, hk, fun hA => ?_⟩
    -- a new record has no address yet
    have hres := ((hh.sameView hret).2.2 hA).1
    rw [setArec_self] at hres
    cases hres

theorem changes_eq_zero {p : Prop} [Decidable p] {moved : Int}
    (h : (0 : Int) = if (if p then 1 else 0) + moved > 0 then 1 else 0) (hm : 0 ≤ moved) : ¬ p ∧ moved = 0 := by
  by_cases hp : p
  · rw [if_pos hp, if_pos (by omega)] at h
    cases h
  · refine ⟨hp, ?_⟩
    by_contra hne
    rw [if_neg hp, if_pos (by omega)] at h
    cases h

theorem TakesSrv.same (h : TakesSrv fuel q s m r elapsed q' 0) :
    (q'.sinsts s).state = (q.sinsts s).state ∧ q'.knows s = q.knows s ∧
      ((q'.sinsts s).isReady = true → (q.sinsts s).port = srvPort m.data r ∧ sameAddress m q r fuel s = true) := by
  obtain ⟨q₁, moved, hh, rfl, hret⟩ := h.hosts
  obtain ⟨hport, rfl⟩ := changes_eq_zero hret hh.ret_nonneg
  have hport := not_ne_iff.mp hport
  have hentry : { q.sinsts s with port := srvPort m.data r } = q.sinsts s := by rw [← hport]
  rw [hentry, Querier.setSinst, Function.update_eq_self] at hh
  obtain ⟨hst, hk, hadd⟩ := hh.same rfl
  refine ⟨?_, ?_, fun hready => ?_⟩
  · rw [setSinst_self]
    exact hst
  · rw [← hk]
    refine knows_congr rfl ?_ ?_ ?_ ?_ <;> rw [setSinst_self] <;> rfl
  · rw [setSinst_self] at hready
    exact ⟨hport, hadd (Bool.and_eq_true_iff.mp hready).1⟩

theorem TakesSrv.agrees (h : TakesSrv fuel q s m r elapsed q' 0) (hg : srvKnown m q r fuel s = true)
    (hq : q.Agrees always s) : q'.Agrees always s := by
  obtain ⟨hst, hk, hsame⟩ := h.same
  intro hstate hready
  rw [hst] at hstate
  rw [hk]
  rcases hready with halways | hready
  · exact hq hstate (.inl halways)
  · obtain ⟨hport, hadd⟩ := hsame hready
    exact of_decide_eq_true hg h.ttl hstate hport hadd

theorem TakesSrv.beside (h : TakesSrv fuel q s m r elapsed q' ret) :
    Beside q s q' := by
  obtain ⟨q₁, moved, hh, rfl, -⟩ := h.hosts
  have hp : Beside q s (q.setSinst s { q.sinsts s with port := srvPort m.data r }) := beside_setSinst _
  refine (hp.trans ?_).trans (beside_setSinst _)
  cases hh with
  | found _ hh => exact hh.beside
  | full _ _ => exact beside_setSinst _
  | fresh _ _ _ hh => exact ⟨fun _ ht => hh.others ht, fun t _ => hh.lastTold t⟩

/-- The TTLs that the elapsed time goes into decide nothing. -/
theorem heeds_srv (h : updateSrv fuel q s m r elapsed = some (q', changes)) (hg : heeds q fuel s (.srv m r) = true) :
    (q'.sinsts s).state = .init ∨ changes ≤ 0 ∨ (q'.sinsts s).isReady = true := by
  by_cases httl : r.ttl = 0
  · rcases updateSrv_eq_some h with ⟨-, -, rfl⟩ | htakes
    · exact .inr (.inl (by decide))
    · exact absurd httl htakes.ttl
  · rw [updateSrv, if_neg httl] at h
    obtain ⟨q₁, moved, hhost, h⟩ := bind_pair_eq_some.mp h
    cases h
    rw [heeds, sinstChanges, updateSrv, if_neg httl, hhost] at hg
    have hg := of_decide_eq_true hg
    rw [setSinst_self] at hg ⊢
    exact hg

theorem updateSinst_srv_keeps (h : updateSinst fuel q s (.got (.srv m r)) elapsed = some (q', ret))
    (hg : srvKnown m q r fuel s = true) (hw : always → heeds q fuel s (.srv m r) = true) (hq : q.Agrees always s) :
    Beside q s q' ∧ q'.Agrees always s := by
  obtain ⟨q₁, changes, hc, hr⟩ := updateSinst_eq_some h
  have hheeds := fun halways => heeds_srv hc (hw halways)
  rcases updateSrv_eq_some hc with ⟨-, hclean, rfl⟩ | htakes
  · have hcl := cleaned_of_cleanupSinst hclean
    obtain ⟨hb, ha⟩ := hr.keeps_got (fun _ => hcl.agrees hq) hheeds
    exact ⟨hcl.beside.trans hb, ha⟩
  · have hsame : changes ≤ 0 → q₁.Agrees always s := by
      intro hle
      obtain rfl : changes = 0 := by
        obtain ⟨_, _, _, -, hflag⟩ := htakes.hosts
        split at hflag <;> omega
      exact htakes.agrees hg hq
    obtain ⟨hb, ha⟩ := hr.keeps_got hsame hheeds
    exact ⟨htakes.beside.trans hb, ha⟩

theorem updateSinst_txt_keeps (h : updateSinst fuel q s (.got (.txt m r)) elapsed = some (q', ret))
    (hw : always → heeds q fuel s (.txt m r) = true) (hq : q.Agrees always s) : Beside q s q' ∧ q'.Agrees always s := by
  obtain ⟨q₁, changes, hc, hr⟩ := updateSinst_eq_some h
  have hheeds : always → (q₁.sinsts s).state = .init ∨ changes ≤ 0 ∨ (q₁.sinsts s).isReady = true := by
    intro halways
    have hg := hw halways
    rw [heeds, show sinstChanges fuel q s (.got (.txt m r)) 0 = some (q₁, changes) from hc] at hg
    exact of_decide_eq_true hg
  obtain ⟨j, c, hj, hc⟩ := bind_pair_eq_some.mp hc
  cases hc
  have hsame : changes ≤ 0 → (q.setSinst s j).Agrees always s := by
    intro hle
    rcases updateTxt_eq_some hj with ⟨rfl, -⟩ | ⟨_, _, _, -, h1⟩
    · exact agrees_setSinst ⟨rfl, rfl, rfl, rfl, id, id⟩ hq
    · omega
  obtain ⟨hb, ha⟩ := hr.keeps_got hsame hheeds
  exact ⟨(beside_setSinst _).trans hb, ha⟩

end calls

section alerts
variable {ipaddr : Nat}

/-- The user knows of the slot, should the address change nothing for it, and `always` the slot can
become ready by it. -/
structure Forewarned (always : Prop) (q : Querier n k) (a : Fin n) (ipaddr : Nat) (s : Fin n) : Prop where
  known : (q.sinsts s).ipaddr = ipaddr → ((q.sinsts s).arec = none ∨ (q.sinsts s).arec = some a) →
    (q.sinsts s).hasSrv = true → (q.sinsts s).state ≠ .init → q.knows s = true
  srv : always → (q.sinsts s).state = .init ∨ (q.sinsts s).hasSrv = true

theorem Reacts.ready_of_shown {changes : Int} {elapsed : Nat} {u : News n} (h : Reacts q s changes elapsed (.got u) q')
    (hst : (q.sinsts s).state = .init) : (q'.sinsts s).state = .init ∨ (q.sinsts s).isReady = true := by
  cases h with
  | quiet _ => exact .inl hst
  | pending hclean _ _ => cases hst.symm.trans hclean
  | gone hne _ _ => exact absurd hst hne
  | discovered _ _ hr _ => exact .inr hr
  | updated hne _ _ _ _ => exact absurd hst hne

theorem alertSinst_arec_keeps (h : alertSinst (.got (.arec a)) q s = some q')
    (hres : (q.arecs a).state = .resolved) (hip : (q.arecs a).ipaddr = ipaddr) (hw : Forewarned always q a ipaddr s) :
    Beside q s q' ∧ q'.Agrees always s ∧ Forewarned always q' a ipaddr s ∧ (q'.arecs a).state = .resolved ∧
      (q'.arecs a).ipaddr = ipaddr := by
  obtain ⟨q₁, changes, hc, hr⟩ := alertSinst_eq_some h
  have hh := hosted_of_setArec hc
  obtain ⟨-, -, -, hst, hsrv⟩ := takeAddress_data (q.sinsts s) (q.arecs a)
  -- the address is there now
  have hA : (q₁.sinsts s).hasA = true := by
    rw [hh.entry]
    simp only [takeAddress, if_pos hres]
  have hstate : (q₁.sinsts s).state = (q.sinsts s).state := by
    rw [hh.entry]
    exact hst
  have hsrv : (q₁.sinsts s).hasSrv = (q.sinsts s).hasSrv := by
    rw [hh.entry]
    exact hsrv
  have hsame : changes ≤ 0 → q₁.Agrees always s := by
    intro hle hst hready
    obtain rfl : changes = 0 := Int.le_antisymm hle hh.ret_nonneg
    obtain ⟨-, harec, hold⟩ := hh.sameView rfl
    rw [(hh.same rfl).2]
    rw [hstate] at hst
    refine hw.known ((hold hA).2.symm.trans hip) harec ?_ hst
    rcases hready with halways | hready
    · exact (hw.srv halways).resolve_left hst
    · rw [← hsrv]
      exact (Bool.and_eq_true_iff.mp hready).2
  have hheeds : always → (q₁.sinsts s).state = .init ∨ changes ≤ 0 ∨ (q₁.sinsts s).isReady = true := fun halways =>
    (hw.srv halways).imp hstate.trans (fun hS => .inr (Bool.and_eq_true_iff.mpr ⟨hA, hsrv.trans hS⟩))
  obtain ⟨hb, ha⟩ := hr.keeps_got hsame hheeds
  obtain ⟨⟨st, hentry⟩, harecs, -, -⟩ := hr.got_frame
  have hframe := hh.arecs a
  refine ⟨hh.beside.trans hb, ha, ⟨fun _ _ hS hst => ha hst (.inr ?_), fun halways => ?_⟩, ?_, ?_⟩
  · rw [hentry] at hS ⊢
    exact Bool.and_eq_true_iff.mpr ⟨hA, hS⟩
  · rcases hw.srv halways with hinit | hS
    · refine (hr.ready_of_shown (hstate.trans hinit)).imp_right (fun hready => ?_)
      rw [hentry]
      exact (Bool.and_eq_true_iff.mp hready).2
    · right
      rw [hentry]
      exact hsrv.trans hS
  · rw [harecs, hframe]
    exact hres
  · rw [harecs, hframe]
    exact hip

theorem Beside.forewarned {t : Fin n} (h : Beside q s q') (ht : t ≠ s) (hw : Forewarned always q a ipaddr t) :
    Forewarned always q' a ipaddr t := by
  have hs := h.others t ht
  constructor
  · rw [knows_congr (h.told t ht) (by rw [hs]) (by rw [hs]) (by rw [hs]) (by rw [hs]), hs]
    exact hw.known
  · rw [hs]
    exact hw.srv

/-- The instances of a record are alerted one by one; one that is met twice knows at the second
time. -/
theorem runAll_arec_keeps {slots : List (Fin n)}
    (h : runAll (alertSinst (.got (.arec a))) slots q = some q') (hres : (q.arecs a).state = .resolved)
    (hip : (q.arecs a).ipaddr = ipaddr) (hw : ∀ s ∈ slots, Forewarned always q a ipaddr s)
    (hq : ∀ t, q.Agrees always t) : ∀ t, q'.Agrees always t := by
  induction slots generalizing q with
  | nil =>
    cases h
    exact hq
  | cons s slots ih =>
    obtain ⟨q₁, hs, h⟩ := runAll_cons_eq_some.mp h
    obtain ⟨hb, ha, hw₁, hres₁, hip₁⟩ := alertSinst_arec_keeps hs hres hip (hw s (mem_cons_self ..))
    refine ih h hres₁ hip₁ (fun t ht => ?_) (hb.all ha hq)
    by_cases hts : t = s
    · rw [hts]
      exact hw₁
    · exact hb.forewarned hts (hw t (mem_cons_of_mem s ht))

theorem agrees_of_eq (hs : q'.sinsts = q.sinsts) (hlog : q'.log = q.log) (hq : ∀ t, q.Agrees always t) :
    ∀ t, q'.Agrees always t :=
  fun t => agrees_congr (by rw [Querier.lastTold, hlog]; rfl) (by rw [hs]) (hq t)

theorem evictArec_agrees (h : evictArec q a = some q') (hq : ∀ t, q.Agrees always t) : ∀ t, q'.Agrees always t := by
  obtain ⟨q₁, h₁, -, rfl⟩ := evictArec_eq_some h
  refine agrees_of_eq (q := q₁) rfl rfl (runAll_keeps (I := fun q : Querier n k => ∀ t, q.Agrees always t) ?_ h₁ hq)
  intro q s q' hs hq
  obtain ⟨q₁, changes, hc, hr⟩ := alertSinst_eq_some hs
  cases hc
  obtain ⟨hb, ha⟩ := hr.keeps_other (.inl rfl) (hq s)
  exact hb.all ha hq

theorem updateArecRx_agrees {m : Message} {r : Resource} (h : updateArecRx q a m r = some q')
    (hg : aKnown m q r a = true) (hw : always → aHeeded m q r a = true) (hq : ∀ t, q.Agrees always t) :
    ∀ t, q'.Agrees always t := by
  rcases updateArecRx_eq_some h with ⟨-, h⟩ | ⟨httl, q₁, h₁, rfl⟩
  · exact evictArec_agrees h hq
  · have hg := of_decide_eq_true hg httl
    refine agrees_of_eq (q := q₁) rfl rfl ?_
    rw [alertIp_eq] at h₁
    split at h₁
    · cases h₁
      exact agrees_of_eq (q := q) rfl rfl hq
    · next hip =>
      rw [setArec_self] at h₁ hip
      refine runAll_arec_keeps h₁ (by rw [setArec_self]) (by rw [setArec_self]) (fun s hs => ?_)
        (agrees_of_eq (q := q) rfl rfl hq)
      exact ⟨hg hip s hs, fun halways => of_decide_eq_true (hw halways) httl hip s hs⟩

end alerts

section events
variable {fuel elapsed : Nat} {m m' : Message}

theorem TakesPtr.agrees {ptr : Resource} (h : TakesPtr fuel elapsed q m ptr q' m') (hq : ∀ t, q.Agrees always t) :
    ∀ t, q'.Agrees always t := by
  cases h with
  | ignored _ => exact hq
  | goodbye _ _ _ hbye hclean =>
    have hcl := cleaned_of_cleanupSinst hclean
    unfold sayGoodbye at hbye
    split at hbye
    · cases hbye
      exact hcl.beside.all (hcl.agrees (hq _)) hq
    · have h₁ := (beside_disappeared hbye).all (agrees_disappeared hbye (hq _)) hq
      exact hcl.beside.all (hcl.agrees (h₁ _)) h₁
  | renewed _ _ _ => exact (beside_setSinst _).all (agrees_setSinst ⟨rfl, rfl, rfl, rfl, id, id⟩ (hq _)) hq
  | failed _ _ _ _ =>
    refine (beside_setSinst _).all (fun hst => ?_) hq
    rw [setSinst_self] at hst
    exact absurd rfl hst
  | @adopted c s free i _ _ _ hinfo =>
    obtain ⟨name, _, _, _, _, -, rfl⟩ := copyServinfo_eq_some hinfo
    have h₁ : ∀ t, ({ q with sinstsFree := free }.setSmon c { q.smons c with sinsts := s :: (q.smons c).sinsts }).Agrees
        always t := agrees_of_eq (q := q) rfl rfl hq
    refine (beside_setSinst _).all (fun hst => ?_) h₁
    rw [setSinst_self] at hst
    exact absurd rfl hst
  | unheard _ _ _ _ => exact hq
  | overflowed _ _ _ _ hover =>
    rcases overflow_eq_some hover with rfl | ⟨report, hslot, -, -, rfl⟩
    · exact hq
    · refine fun t => agrees_congr (q := q) ?_ rfl (hq t)
      simp [Querier.lastTold, hslot]

theorem ArecTurn.agrees {ret : Int} (h : ArecTurn q a elapsed q' ret) (hq : ∀ t, q.Agrees always t) :
    ∀ t, q'.Agrees always t := by
  cases h with
  | launches _ => exact agrees_of_eq (q := q) rfl rfl hq
  | waits _ _ => exact agrees_of_eq (q := q) rfl rfl hq
  | retries _ _ _ => exact agrees_of_eq (q := q) rfl rfl hq
  | refreshes _ _ => exact agrees_of_eq (q := q) rfl rfl hq
  | evicts _ _ _ hevict => exact evictArec_agrees hevict (agrees_of_eq (q := q) rfl rfl hq)

theorem updateSinst_ask_agrees {ret : Int} (h : updateSinst 0 q s .addQuestions elapsed = some (q', ret))
    (hq : ∀ t, q.Agrees always t) : ∀ t, q'.Agrees always t := by
  obtain ⟨q₁, changes, hc, hr⟩ := updateSinst_eq_some h
  cases hc
  obtain ⟨hb, ha⟩ := hr.keeps_other (.inr rfl) (hq s)
  exact hb.all ha hq

def informed : Guard n k :=
  { srv := fun fuel m q r s => srvKnown m q r fuel s, a := fun m q r a => aKnown m q r a }

/-- Every change is taken while the instance is ready. -/
def heeded : Guard n k where
  txt fuel m q r s := heeds q fuel s (.txt m r)
  srv fuel m q r s := heeds q fuel s (.srv m r)
  a m q r a := aHeeded m q r a

/-- A condition under which the user is told of every change that shows. -/
structure Guard.Tells (G : Guard n k) (always : Prop) : Prop where
  txt : ∀ {fuel m q r s}, G.txt fuel m q r s = true → always → heeds q fuel s (.txt m r) = true
  srv : ∀ {fuel m q r s}, G.srv fuel m q r s = true → (∀ t, q.Agrees always t) →
    srvKnown m q r fuel s = true ∧ (always → heeds q fuel s (.srv m r) = true)
  a : ∀ {m q r a}, G.a m q r a = true → (∀ t, q.Agrees always t) →
    aKnown m q r a = true ∧ (always → aHeeded m q r a = true)

theorem informed_tells : (informed : Guard n k).Tells False :=
  ⟨fun _ => nofun, fun h _ => ⟨h, nofun⟩, fun h _ => ⟨h, nofun⟩⟩

theorem heeded_tells : (heeded : Guard n k).Tells True where
  txt h _ := h
  srv h hq := ⟨decide_eq_true fun _ hst _ _ => hq _ hst (.inl trivial), fun _ => h⟩
  a h hq := ⟨decide_eq_true fun _ _ s _ _ _ _ hst => hq s hst (.inl trivial), fun _ => h⟩

theorem keptByCalls_agrees {G : Guard n k} (hG : G.Tells always) : KeptByCalls G (fun q => ∀ t, q.Agrees always t) where
  same h hq := agrees_of_eq h.sinsts h.log hq
  clean h hq := by
    have hcl := cleaned_of_cleanupSinst h
    exact hcl.beside.all (hcl.agrees (hq _)) hq
  ptr _ h hq := h.agrees hq
  txt _ hmet h hq := by
    obtain ⟨hb, ha⟩ := updateSinst_txt_keeps h (hG.txt hmet) (hq _)
    exact hb.all ha hq
  srv _ hmet h hq := by
    obtain ⟨hknown, hheeds⟩ := hG.srv hmet hq
    obtain ⟨hb, ha⟩ := updateSinst_srv_keeps h hknown hheeds (hq _)
    exact hb.all ha hq
  a _ _ hmet h hq := by
    obtain ⟨hknown, hheeds⟩ := hG.a hmet hq
    exact updateArecRx_agrees h hknown hheeds hq
  turn _ h hq := h.agrees hq
  ask _ h hq := updateSinst_ask_agrees h hq

/-- Every cached instance that is shown and ready has the data of its last discovery or update. -/
def Querier.UpToDate (q : Querier n k) : Prop :=
  ∀ s, s ∉ q.sinstsFree → ((q.sinsts s).state = .clean ∨ (q.sinsts s).state = .updating) →
    (q.sinsts s).isReady = true → ∃ r, q.lastTold s = some r ∧ r.fqsn = (q.sinsts s).fqsn ∧
      r.port = (q.sinsts s).port ∧ r.ipaddr = (q.sinsts s).ipaddr ∧ r.keyvals = (q.sinsts s).keyvals

theorem Run.upToDate {G : Guard n k} (hG : G.Tells always) (h : Run G q) : q.UpToDate := by
  intro s _ hst hready
  have hne : (q.sinsts s).state ≠ .init := by
    rcases hst with hst | hst <;> rw [hst] <;> decide
  have hk := Run.keeps_calls (keptByCalls_agrees hG) (fun _ hst => absurd rfl hst) h s hne (.inr hready)
  unfold Querier.knows at hk
  cases hr : q.lastTold s with
  | none =>
    rw [hr] at hk
    cases hk
  | some r =>
    rw [hr] at hk
    exact ⟨r, rfl, of_decide_eq_true hk⟩

/-- The user knows after every event of a run in which no change is taken while the instance is not
ready, or in which a record that changes nothing comes only when the user knows. -/
theorem run_upToDate (h : Run heeded q ∨ Run informed q) : q.UpToDate := by
  rcases h with h | h
  · exact h.upToDate heeded_tells
  · exact h.upToDate informed_tells

set_option maxRecDepth 100000 in
theorem run_upToDate_announced :
    ∃ q : Querier 16 4, Run informed q ∧ (q.sinsts 15).state = .clean ∧ (q.sinsts 15).isReady = true ∧ q.UpToDate := by
  have h : ((runAll (guardedStep informed 60) [.monitor httpType, announce 65 1, announce 66 2, .prepare 1000]
      (queryLaunch 16 4)).map (fun q => decide ((q.sinsts 15).state = .clean ∧ (q.sinsts 15).isReady = true))) =
      some true := by decide +kernel
  obtain ⟨q, hq, hshown⟩ := map_eq_some_iff.mp h
  obtain ⟨hclean, hready⟩ := of_decide_eq_true hshown
  exact ⟨q, run_of_runAll hq, hclean, hready, run_upToDate (.inr (run_of_runAll hq))⟩

/-- The text `k=v` of `a`. -/
def httpTxt : Mem := wireRecord [0xC0, 40] tTxt 120 [3, 107, 61, 118]

set_option maxRecDepth 100000 in
/-- After 96 seconds the SRV record of `a` is asked for again. The answer has a new TXT record,
which is taken while the instance is not ready, and the SRV record as it was. -/
theorem upToDate_fails :
    ∃ q, runAll (step 60) [.monitor httpType, announce 65 1, .prepare 96001,
      receive [httpPtr 120, httpSrv 65, httpTxt]] (queryLaunch 16 4) = some q ∧ ¬ q.UpToDate := by
  have h : ((runAll (step 60) [.monitor httpType, announce 65 1, .prepare 96001,
      receive [httpPtr 120, httpSrv 65, httpTxt]] (queryLaunch 16 4)).map (fun q =>
        decide (15 ∉ q.sinstsFree ∧ (q.sinsts 15).state = .updating ∧ (q.sinsts 15).isReady = true ∧
          q.knows 15 = false))) = some true := by decide +kernel
  obtain ⟨q, hq, hbad⟩ := map_eq_some_iff.mp h
  obtain ⟨hused, hst, hready, hk⟩ := of_decide_eq_true hbad
  refine ⟨q, hq, fun hu => ?_⟩
  obtain ⟨r, hr, hmatch⟩ := hu 15 hused (.inr hst) hready
  rw [Querier.knows, hr] at hk
  exact of_decide_eq_false hk hmatch

end events

end Mdns
