import Mdns.Query.Cache

/-!
# One record of a response

What `update_service_cache` does with a record, as an inversion for PTR records and as moves of
the registry for all of them.
-/
namespace Mdns
open Lib Option
open Function (update)

variable {n k : Nat}

section inversion
variable {fuel elapsed : Nat}
  {i j : ServiceInstance n k} {m m' : Message} {q q' : Querier n k} {ptr : Resource}
  {rs rest : List Resource} {host : Option Mem}

theorem length_dnameLabelToC {fuel src next : Nat} {p : Mem} {keep : Bool} {text : List UInt8}
    (h : dnameLabelToC fuel p src keep = some (some (text, next))) : text.length < maxLabelLen := by
  unfold dnameLabelToC at h
  simp only [bind_eq_bind, bind_eq_some_iff] at h
  obtain ⟨off, -, h⟩ := h
  split at h
  · cases h
  · next hlen =>
    cases h
    have hslice : (slice p (off + 1) (byte p off)).length = byte p off := slice_length ..
    split
    · omega
    · have hle := List.length_filter_le (· ≠ underscore) (slice p (off + 1) (byte p off))
      omega

/-- What `copy_servinfo` has read when it succeeds. -/
structure ReadsInfo (fuel : Nat) (m : Message) (off : Nat) (j : ServiceInstance n k) : Prop where
  copied : dnameCopy fuel m.data off = some (j.fqsn, 0)
  parts : ∃ typeAt protoAt isTcp isUdp domainAt rest,
    dnameLabelToC fuel m.data off true = some (some (j.servname, typeAt)) ∧
    dnameLabelToC fuel m.data typeAt false = some (some (j.servtype, protoAt)) ∧
    dnameLabelCmp fuel (.plain (dnamePutLabel [95, 116, 99, 112])) 0 (.packet m.data) protoAt = some isTcp ∧
    dnameLabelCmp fuel (.plain (dnamePutLabel [95, 117, 100, 112])) 0 (.packet m.data) protoAt = some isUdp ∧
    (isTcp = 0 ∨ isUdp = 0) ∧ j.proto = (if isTcp = 0 then .tcp else .udp) ∧
    dnameLabelNext fuel (.packet m.data) protoAt = some (some domainAt) ∧
    dnameLabelToC fuel m.data domainAt false = some (some (j.domain, rest))

theorem copyServinfo_reads {off : Nat}
    (h : copyServinfo fuel i m off = some (some j)) : ReadsInfo fuel m off j ∧
      j = { i with fqsn := j.fqsn, servname := j.servname, servtype := j.servtype, proto := j.proto,
                   domain := j.domain } := by
  unfold copyServinfo at h
  simp only [bind_eq_bind, bind_eq_some_iff] at h
  obtain ⟨⟨name, ret⟩, hcopy, h⟩ := h
  dsimp only at h
  split at h
  · cases h
  · next hret =>
    obtain rfl : ret = 0 := (dnameCopy_ret hcopy).resolve_right hret
    -- every later check that fails gives the -1
    simp only [bind_eq_some_iff] at h
    obtain ⟨label, hname, h⟩ := h
    cases label with
    | none => cases h
    | some label =>
      simp only [bind_eq_some_iff] at h
      obtain ⟨label', htype, h⟩ := h
      cases label' with
      | none => cases h
      | some label' =>
        simp only [bind_eq_some_iff] at h
        obtain ⟨isTcp, htcp, isUdp, hudp, h⟩ := h
        split at h
        · cases h
        · next hproto =>
          simp only [bind_eq_some_iff] at h
          obtain ⟨next, hnext, h⟩ := h
          cases next with
          | none => cases h
          | some next =>
            simp only [bind_eq_some_iff] at h
            obtain ⟨label'', hdomain, h⟩ := h
            cases label'' with
            | none => cases h
            | some label'' =>
              cases h
              refine ⟨⟨hcopy, _, _, isTcp, isUdp, next, _, hname, htype, htcp, hudp, ?_, rfl, hnext, hdomain⟩, rfl⟩
              by_contra hne
              exact hproto (not_or.mp hne)

theorem copyServinfo_eq_some {off : Nat} (h : copyServinfo fuel i m off = some (some j)) :
    ∃ name servname servtype proto domain, dnameCopy fuel m.data off = some (name, 0) ∧
      j = { i with fqsn := name, servname, servtype, proto, domain } := by
  obtain ⟨hreads, hj⟩ := copyServinfo_reads h
  exact ⟨_, _, _, _, _, hreads.copied, hj⟩

inductive TakesPtr (fuel elapsed : Nat) (q : Querier n k) (m : Message) (ptr : Resource) :
    Querier n k → Message → Prop where
  | ignored : findServiceMonitor fuel q (.packet m.data) (some ptr.name) = some none → TakesPtr fuel elapsed q m ptr q m
  | goodbye {c : Fin k} {s : Fin n} {q₁ q' : Querier n k} :
      findServiceMonitor fuel q (.packet m.data) (some ptr.name) = some (some c) →
      findServiceInstance fuel q c m ptr.rdata = some (some s) → ptr.ttl = 0 → sayGoodbye q s = some q₁ →
      cleanupSinst q₁ s = some q' → TakesPtr fuel elapsed q m ptr q' m
  | renewed {c : Fin k} {s : Fin n} :
      findServiceMonitor fuel q (.packet m.data) (some ptr.name) = some (some c) →
      findServiceInstance fuel q c m ptr.rdata = some (some s) → ptr.ttl ≠ 0 →
      TakesPtr fuel elapsed q m ptr
        (q.setSinst s { q.sinsts s with ptrTtl := add32 (convertTtl ptr.ttl) elapsed }) m
  | failed {c : Fin k} {s : Fin n} {free : List (Fin n)} :
      findServiceMonitor fuel q (.packet m.data) (some ptr.name) = some (some c) →
      findServiceInstance fuel q c m ptr.rdata = some none → q.sinstsFree = s :: free →
      copyServinfo (n := n) fuel { smon := some c } m ptr.rdata = some none →
      TakesPtr fuel elapsed q m ptr (q.setSinst s { smon := some c }) m
  | adopted {c : Fin k} {s : Fin n} {free : List (Fin n)} {i : ServiceInstance n k} :
      findServiceMonitor fuel q (.packet m.data) (some ptr.name) = some (some c) →
      findServiceInstance fuel q c m ptr.rdata = some none → q.sinstsFree = s :: free →
      copyServinfo fuel { smon := some c } m ptr.rdata = some (some i) →
      TakesPtr fuel elapsed q m ptr
        (({ q with sinstsFree := free }.setSmon c { q.smons c with sinsts := s :: (q.smons c).sinsts }).setSinst s
          { i with ptrTtl := add32 (convertTtl ptr.ttl) elapsed }) m
  | unheard {c : Fin k} : findServiceMonitor fuel q (.packet m.data) (some ptr.name) = some (some c) →
      findServiceInstance fuel q c m ptr.rdata = some none → q.sinstsFree = [] → ptr.ttl = 0 →
      TakesPtr fuel elapsed q m ptr q m
  | overflowed {c : Fin k} {q' : Querier n k} {m' : Message} :
      findServiceMonitor fuel q (.packet m.data) (some ptr.name) = some (some c) →
      findServiceInstance fuel q c m ptr.rdata = some none → q.sinstsFree = [] → ptr.ttl ≠ 0 →
      overflow fuel q m c ptr = some (q', m') → TakesPtr fuel elapsed q m ptr q' m'

theorem takesPtr_of_ptrStep (h : ptrStep fuel elapsed (q, m) ptr = some (q', m')) :
    TakesPtr fuel elapsed q m ptr q' m' := by
  unfold ptrStep at h
  simp only [bind_eq_bind, bind_eq_some_iff] at h
  obtain ⟨mon, hmon, h⟩ := h
  cases mon with
  | none =>
    cases h
    exact .ignored hmon
  | some c =>
    simp only [bind_eq_some_iff] at h
    obtain ⟨inst, hinst, h⟩ := h
    cases inst with
    | some s =>
      dsimp only at h
      split at h
      · next httl =>
        simp only [bind_eq_some_iff, Option.pure_def, some.injEq, Prod.mk.injEq] at h
        obtain ⟨q₁, hbye, q₂, hclean, rfl, rfl⟩ := h
        exact .goodbye hmon hinst httl hbye hclean
      · next httl =>
        cases h
        exact .renewed hmon hinst httl
    | none =>
      cases hfree : q.sinstsFree with
      | nil =>
        simp only [hfree] at h
        split at h
        · next httl =>
          cases h
          exact .unheard hmon hinst hfree httl
        · next httl => exact .overflowed hmon hinst hfree httl h
      | cons s free =>
        simp only [hfree, bind_eq_some_iff] at h
        obtain ⟨info, hinfo, h⟩ := h
        cases info with
        | none =>
          cases h
          exact .failed hmon hinst hfree hinfo
        | some i =>
          cases h
          exact .adopted hmon hinst hfree hinfo

theorem takeTxts_keeps {p : Mem} {P : ServiceInstance n k → Prop}
    (hP : ∀ {i j ret r}, updateTxt fuel i p r = some (j, ret) → P i → P j)
    (h : takeTxts fuel p rs i = some (j, rest)) (hi : P i) : P j ∧ rest ⊆ rs := by
  induction rs generalizing i rest with
  | nil =>
    cases h
    exact ⟨hi, fun _ h => h⟩
  | cons r rs ih =>
    simp only [takeTxts, bind_eq_bind, bind_eq_some_iff] at h
    obtain ⟨c, -, h⟩ := h
    split at h
    · obtain ⟨i₁, ret, htxt, h⟩ := bind_pair_eq_some.mp h
      obtain ⟨hj, hsub⟩ := ih h (hP htxt hi)
      exact ⟨hj, List.subset_cons_of_subset r hsub⟩
    · obtain ⟨i₁, rest₁, hi₁, h⟩ := bind_pair_eq_some.mp h
      cases h
      obtain ⟨hj, hsub⟩ := ih hi₁ hi
      exact ⟨hj, List.cons_subset_cons r hsub⟩

theorem takeSrvs_eq_some {p : Mem} {host' : Option Mem} (h : takeSrvs fuel p rs i host = some (j, host', rest)) :
    (∃ port, j = { i with port }) ∧ rest ⊆ rs := by
  induction rs generalizing i host rest with
  | nil =>
    cases h
    exact ⟨⟨_, rfl⟩, fun _ h => h⟩
  | cons r rs ih =>
    simp only [takeSrvs, bind_eq_bind, bind_eq_some_iff] at h
    obtain ⟨c, -, h⟩ := h
    split at h
    · obtain ⟨⟨i₁, host₁, rest₁⟩, hi, h⟩ := bind_eq_some_iff.mp h
      cases h
      exact ⟨(ih hi).1, List.cons_subset_cons r (ih hi).2⟩
    · obtain ⟨⟨fqdn, ret⟩, -, h⟩ := bind_eq_some_iff.mp h
      obtain ⟨⟨port, rfl⟩, hsub⟩ := ih h
      exact ⟨⟨port, rfl⟩, List.subset_cons_of_subset r hsub⟩

theorem overflowIp_eq_some (h : overflowIp fuel m host i = some j) : ∃ ipaddr, j = { i with ipaddr } := by
  unfold overflowIp at h
  cases host with
  | none =>
    cases h
    exact ⟨_, rfl⟩
  | some fqdn =>
    simp only [bind_eq_bind, bind_eq_some_iff] at h
    obtain ⟨found, -, h⟩ := h
    cases found <;> cases h <;> exact ⟨_, rfl⟩

/-- The report of a full cache is the only thing that `overflow` leaves in the querier. -/
theorem overflow_cases {c : Fin k} (h : overflow fuel q m c ptr = some (q', m')) :
    (q' = q ∧ m' = m) ∨ ∃ i j port ipaddr txts srvs,
      copyServinfo fuel { smon := some c } m ptr.rdata = some (some i) ∧
      takeTxts fuel m.data m.txts i = some (j, txts) ∧ srvs ⊆ m.srvs ∧
      doCallback q none { j with port, ipaddr } .cacheFull = some q' ∧ m' = { m with txts, srvs } := by
  unfold overflow at h
  simp only [bind_eq_bind, bind_eq_some_iff] at h
  obtain ⟨info, hinfo, h⟩ := h
  cases info with
  | none =>
    cases h
    exact .inl ⟨rfl, rfl⟩
  | some i =>
    simp only [bind_eq_some_iff] at h
    obtain ⟨⟨i₁, txts⟩, htxts, ⟨i₂, host, srvs⟩, hsrvs, i₃, hip, q₁, hcb, h⟩ := h
    cases h
    obtain ⟨⟨port, rfl⟩, hsub⟩ := takeSrvs_eq_some hsrvs
    obtain ⟨ipaddr, rfl⟩ := overflowIp_eq_some hip
    exact .inr ⟨i, i₁, port, ipaddr, txts, srvs, hinfo, htxts, hsub, hcb, rfl⟩

theorem overflow_eq_some {c : Fin k} (h : overflow fuel q m c ptr = some (q', m')) :
    q' = q ∨ ∃ report : Report n, report.slot = none ∧ report.status = .cacheFull ∧
      report.session = (q.smons c).session ∧ q' = { q with log := report :: q.log } := by
  rcases overflow_cases h with ⟨rfl, -⟩ | ⟨i, j, _, _, _, _, hinfo, htxts, -, hcb, -⟩
  · exact .inl rfl
  · obtain ⟨_, _, _, _, _, -, rfl⟩ := copyServinfo_eq_some hinfo
    have hsmon : j.smon = some c := by
      refine (takeTxts_keeps (P := fun j => j.smon = some c) ?_ htxts rfl).1
      intro i j ret r htxt hi
      rcases updateTxt_eq_some htxt with ⟨rfl, -⟩ | ⟨_, _, _, rfl, -⟩ <;> exact hi
    simp only [doCallback, bind_eq_bind, bind_eq_some_iff, Option.pure_def, some.injEq] at hcb
    obtain ⟨d, hd, rfl⟩ := hcb
    cases hsmon.symm.trans hd
    exact .inr ⟨_, rfl, rfl, rfl, rfl⟩

end inversion

section moves
variable {mayMove : Policy n k} {live : List (Fin k)} {q q' : Querier n k} {s : Fin n} {c : Fin k} {fuel elapsed : Nat}
  {m m' : Message} {r : Resource}

theorem reg_setSinst_all (q : Querier n k) (s : Fin n) (i : ServiceInstance n k) :
    (q.setSinst s i).reg = { q.reg with
      owner := update q.reg.owner s i.smon, host := update q.reg.host s i.arec,
      shown := update q.reg.shown s i.state.shown, name := update q.reg.name s i.fqsn } := by
  have h1 := field_update (ServiceInstance.smon) q.sinsts s i
  have h2 := field_update (ServiceInstance.arec) q.sinsts s i
  have h3 := field_update (fun i : ServiceInstance n k => i.state.shown) q.sinsts s i
  have h4 := field_update (ServiceInstance.fqsn) q.sinsts s i
  simp only [Querier.reg, Querier.setSinst, h1, h2, h3, h4]

theorem expands_of_dnameCopy {p : Mem} {src : Nat} {name : Mem} (h : dnameCopy fuel p src = some (name, 0)) :
    Expands (.packet p) src (plainLabels name) := by
  obtain ⟨ls, g, rfl, he⟩ := dnameCopy_expands h
  have hat : At (encodeName ls ++ g) 0 (encodeName ls) := ⟨[], g, by simp, rfl⟩
  rw [plainLabels_eq (expands_encodeName he.length_pos hat)]
  exact he

theorem fresh_of_findServiceInstance (hn : ∀ t ∈ q.reg.members c, WfName (q.reg.name t)) {off : Nat} {name : Mem}
    (hfind : findServiceInstance fuel q c m off = some none) (hcopy : dnameCopy fuel m.data off = some (name, 0)) :
    ∀ t ∈ q.reg.members c, plainLabels (q.reg.name t) ≠ plainLabels name := by
  intro t ht heq
  have heq : plainLabels (q.sinsts t).fqsn = plainLabels name := heq
  have hexp := expands_of_dnameCopy hcopy
  have hcmp := findFirst_none hfind t ht
  obtain ⟨d, hd, hne⟩ := map_eq_some_iff.mp hcmp
  have hname : Expands (.plain (q.sinsts t).fqsn) 0 (plainLabels (q.sinsts t).fqsn) := hn t ht
  have hd0 := dnameCmp_eq hd hname hexp
  rw [cmpLabels_eq_zero.mpr heq] at hd0
  simp [hd0] at hne

theorem sayGoodbye_farewell {q₁ : Querier n k} (hl : q.reg.Linked live) (hs : s ∉ q.sinstsFree)
    (hbye : sayGoodbye q s = some q₁) (hclean : cleanupSinst q₁ s = some q') : Handles mayMove live q s q' := by
  have hcl := cleaned_of_cleanupSinst hclean
  unfold sayGoodbye at hbye
  split at hbye
  · next hst =>
    cases hbye
    exact hcl.unseen hs hst
  · next hst =>
    -- the callback comes first here, but the registry is the same
    obtain ⟨d, ho, hreg, hsinsts, hactive, hfree⟩ := callbackOn_reg hbye
    refine ⟨.single ?_, hcl.smonsActive.trans hactive, fun t ht => ?_, fun t ht => ?_⟩
    · rw [hcl.reg, hreg]
      exact .vanish hs (hl.owner_mem hs ho) ho (shown_of_ne_init hst)
    · rw [hcl.others ht, hsinsts]
    · rw [hcl.freed ht, hfree]

theorem not_free_of_find (hl : q.reg.Linked live) {off : Nat}
    (h : findServiceInstance fuel q c m off = some (some s)) : s ∉ q.sinstsFree :=
  ((hl.members.mem_iff c s).mp (findFirst_mem h).1).1

theorem TakesPtr.advances {ptr : Resource} (h : TakesPtr fuel elapsed q m ptr q' m') (hl : q.reg.Linked q.smonsActive)
    (hn : q.reg.Named WfName) : Advances mayMove q.smonsActive q q' := by
  cases h with
  | ignored _ => exact .refl _
  | goodbye _ hinst _ hbye hclean => exact (sayGoodbye_farewell hl (not_free_of_find hl hinst) hbye hclean).advances
  | renewed _ _ _ => exact advances_of_reg (reg_setSinst ⟨rfl, rfl, rfl, rfl⟩) rfl
  | @failed c s free hmon _ hfree _ =>
    refine ⟨.single ?_, rfl⟩
    rw [reg_setSinst_all]
    exact .clear (show s ∈ q.sinstsFree by rw [hfree]; exact List.mem_cons_self ..)
  | @adopted c s free i hmon hinst hfree hinfo =>
    obtain ⟨name, _, _, _, _, hcopy, rfl⟩ := copyServinfo_eq_some hinfo
    refine ⟨.single ?_, rfl⟩
    rw [reg_setSinst_all]
    have hreg : ({ q with sinstsFree := free }.setSmon c { q.smons c with sinsts := s :: (q.smons c).sinsts }).reg =
        { q.reg with free, members := link q.reg.members c s } :=
      reg_setSmon_sinsts { q with sinstsFree := free } c (s :: (q.smons c).sinsts)
    rw [hreg]
    have hnamed : ∀ t ∈ q.reg.members c, WfName (q.reg.name t) :=
      fun t ht => hn.slots t ((hl.members.mem_iff c t).mp ht).1
    exact .adopt hfree (findFirst_mem hmon).1 (wfName_of_dnameCopy hcopy)
      (fresh_of_findServiceInstance hnamed hinst hcopy)
  | unheard _ _ _ _ => exact .refl _
  | @overflowed c q' m' hmon _ _ _ hover =>
    rcases overflow_eq_some hover with rfl | ⟨report, -, hst, hse, rfl⟩
    · exact .refl _
    · refine ⟨.single ?_, rfl⟩
      have hreg : ({ q with log := report :: q.log } : Querier n k).reg = 
          q.reg.tell c report.fqsn .cacheFull report.ready := by
        simp only [Querier.reg, Registry.tell, List.map_cons, hst, hse]
      rw [hreg]
      exact .overflow (findFirst_mem hmon).1

theorem not_free_of_sinstOf (hl : q.reg.Linked live) (h : sinstOf fuel q m r = some (some s)) : s ∉ q.sinstsFree := by
  unfold sinstOf at h
  simp only [bind_eq_bind, bind_eq_some_iff] at h
  obtain ⟨fqst, -, mon, -, h⟩ := h
  cases mon with
  | none => cases h
  | some c => exact not_free_of_find hl h

theorem txtStep_eq_some (h : txtStep fuel elapsed m q r = some q') :
    (sinstOf fuel q m r = some none ∧ q' = q) ∨
    ∃ s ret, sinstOf fuel q m r = some (some s) ∧ updateSinst fuel q s (.got (.txt m r)) elapsed = some (q', ret) := by
  unfold txtStep at h
  simp only [bind_eq_bind, bind_eq_some_iff] at h
  obtain ⟨inst, hinst, h⟩ := h
  cases inst with
  | none =>
    cases h
    exact .inl ⟨hinst, rfl⟩
  | some s =>
    obtain ⟨⟨q₁, ret⟩, hu, rfl⟩ := map_eq_some_iff.mp h
    exact .inr ⟨s, ret, hinst, hu⟩

theorem srvStep_eq_some (h : srvStep fuel elapsed m q r = some q') :
    (sinstOf fuel q m r = some none ∧ q' = q) ∨
    ∃ s ret, sinstOf fuel q m r = some (some s) ∧ updateSinst fuel q s (.got (.srv m r)) elapsed = some (q', ret) := by
  unfold srvStep at h
  simp only [bind_eq_bind, bind_eq_some_iff] at h
  obtain ⟨inst, hinst, h⟩ := h
  cases inst with
  | none =>
    cases h
    exact .inl ⟨hinst, rfl⟩
  | some s =>
    obtain ⟨⟨q₁, ret⟩, hu, rfl⟩ := map_eq_some_iff.mp h
    exact .inr ⟨s, ret, hinst, hu⟩

theorem aStep_eq_some (h : aStep fuel m q r = some q') :
    (findArec fuel q m r.name = some none ∧ q' = q) ∨
    ∃ a, findArec fuel q m r.name = some (some a) ∧ updateArecRx q a m r = some q' := by
  unfold aStep at h
  simp only [bind_eq_bind, bind_eq_some_iff] at h
  obtain ⟨found, hfind, h⟩ := h
  cases found with
  | none =>
    cases h
    exact .inl ⟨hfind, rfl⟩
  | some a => exact .inr ⟨a, hfind, h⟩

theorem txtStep_advances (hl : q.reg.Linked live) (h : txtStep fuel elapsed m q r = some q') :
    Advances mayMove live q q' := by
  rcases txtStep_eq_some h with ⟨-, rfl⟩ | ⟨s, ret, hinst, hu⟩
  · exact .refl _
  · exact (handles_of_updateSinst hu hl (not_free_of_sinstOf hl hinst) trivial).advances

theorem srvStep_advances (hl : q.reg.Linked live)
    (hok : ∀ s, sinstOf fuel q m r = some (some s) → SrvOk mayMove fuel q s m r)
    (h : srvStep fuel elapsed m q r = some q') : Advances mayMove live q q' := by
  rcases srvStep_eq_some h with ⟨-, rfl⟩ | ⟨s, ret, hinst, hu⟩
  · exact .refl _
  · exact (handles_of_updateSinst hu hl (not_free_of_sinstOf hl hinst) (hok s hinst)).advances

theorem aStep_advances
    (hself : ∀ (r : Registry (Fin n) (Fin n) (Fin k) Mem) (s a : Fin n), r.host s = some a → mayMove r s a)
    (hl : q.reg.Linked live) (h : aStep fuel m q r = some q') : Advances mayMove live q q' := by
  rcases aStep_eq_some h with ⟨-, rfl⟩ | ⟨a, -, hu⟩
  · exact .refl _
  · exact updateArecRx_advances hself hl hu

end moves

end Mdns
