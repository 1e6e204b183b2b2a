import Mdns.Query.Update

/-!
# What one call does to an instance

Inversions of the functions on a service instance: from a call that returned, what it has
done. The invariants are proved from these and never look at the functions again.
-/
namespace Mdns
open Lib Option

variable {n k : Nat} {q q' : Querier n k} {s : Fin n} {changes ret : Int} {elapsed : Nat}

theorem slistRemove_eq_some {α : Type} [DecidableEq α] {x : α} {l l' : List α} :
    slistRemove x l = some l' ↔ x ∈ l ∧ l' = l.erase x := by
  unfold slistRemove
  split
  · next h => simp [h, eq_comm]
  · next h => simp [h]

section lists
variable (q : Querier n k) (s a : Fin n)

-- the code where each A record has a list of its own

theorem leaveArec_eq : leaveArec q s a = (do
    let refs ← slistRemove s (q.arecs a).sinsts
    let q := q.setArec a { q.arecs a with sinsts := refs }
    if refs = [] then do
      let active ← slistRemove a q.arecsActive
      return { q with arecsActive := active, arecsFree := a :: q.arecsFree }
    else return q) := by
  cases h : slistRemove s (q.arecs a).sinsts with
  | none => simp only [leaveArec, AList.remove, h, map_none, bind_eq_bind, bind_none]
  | some refs => cases refs <;> simp [leaveArec, AList.remove, AList.isEmpty, h]

theorem takeOff_eq : takeOff q s a = match (q.sinsts s).arec with
    | none => some (q, 0)
    | some old => do
      let refs ← slistRemove s (q.arecs old).sinsts
      return (q.setArec old { q.arecs old with sinsts := refs }, if old ≠ a then 1 else 0) := by
  unfold takeOff
  cases (q.sinsts s).arec with
  | none => rfl
  | some old => cases h : slistRemove s (q.arecs old).sinsts <;> simp [AList.remove, h]

theorem evictArec_eq : evictArec q a = (do
    let q ← runAll (alertSinst .lostArec) (q.arecs a).sinsts q
    if (q.arecs a).sinsts = [] then return q.setArec a { q.arecs a with nextRefresh := uint32Max } else none) := by
  unfold evictArec
  simp only [AList.forEach, AList.isEmpty, List.isEmpty_iff]

theorem alertIp_eq (ipaddr : Nat) : alertIp q a ipaddr = if (q.arecs a).ipaddr = ipaddr then some q
    else runAll (alertSinst (.got (.arec a))) (q.arecs a).sinsts (q.setArec a { q.arecs a with ipaddr }) := rfl

end lists

variable {a : Fin n}

theorem evictArec_eq_some (h : evictArec q a = some q') :
    ∃ q₁, runAll (alertSinst .lostArec) (q.arecs a).sinsts q = some q₁ ∧ (q₁.arecs a).sinsts = [] ∧
      q' = q₁.setArec a { q₁.arecs a with nextRefresh := uint32Max } := by
  rw [evictArec_eq] at h
  obtain ⟨q₁, h₁, h⟩ := bind_eq_some_iff.mp h
  split at h
  · next hnil =>
    cases h
    exact ⟨q₁, h₁, hnil, rfl⟩
  · cases h

theorem updateArecRx_eq_some {m : Message} {r : Resource} (h : updateArecRx q a m r = some q') :
    (r.ttl = 0 ∧ evictArec q a = some q') ∨ (r.ttl ≠ 0 ∧ ∃ q₁,
      alertIp (q.setArec a { q.arecs a with state := .resolved }) a (getUint32 m.data r.rdata) = some q₁ ∧
      q₁.setArec a { q₁.arecs a with
        ttl := convertTtl r.ttl, nextRefresh := percent (convertTtl r.ttl) 80, ttlPercent := 10 } = q') := by
  unfold updateArecRx at h
  split at h
  · next httl => exact .inl ⟨httl, h⟩
  · next httl =>
    obtain ⟨q₁, h₁, h⟩ := bind_eq_some_iff.mp h
    exact .inr ⟨httl, q₁, h₁, some.inj h⟩

/-- What `sinst_react` can do; `changes` are those that the update before it has made. -/
inductive Reacts (q : Querier n k) (s : Fin n) (changes : Int) (elapsed : Nat) :
    SinstEvent n → Querier n k → Prop where
  | lost {q' : Querier n k} : (q.sinsts s).state = .init → cleanupSinst q s = some q' →
      Reacts q s changes elapsed .lostArec q'
  | lostShown {q₁ q' : Querier n k} : (q.sinsts s).state ≠ .init → cleanupSinst q s = some q₁ →
      callbackOn q₁ s .disappeared = some q' → Reacts q s changes elapsed .lostArec q'
  | aged {q' : Querier n k} {ret : Int} : applyElapsed q s elapsed = some (q', ret) → ret ≠ -1 →
      Reacts q s changes elapsed .addQuestions q'
  | asked {q' : Querier n k} : (q.sinsts s).state = .clean → applyElapsed q s elapsed = some (q', 1) →
      Reacts q s changes elapsed .addQuestions
        ((q'.setSinst s { q'.sinsts s with hasSrv := false }).setState s .updating)
  | expired {q' : Querier n k} : (q.sinsts s).state = .init → applyElapsed q s elapsed = some (q', -1) →
      Reacts q s changes elapsed .addQuestions q'
  | expiredShown {q₁ q' : Querier n k} : (q.sinsts s).state ≠ .init → applyElapsed q s elapsed = some (q₁, -1) →
      callbackOn q₁ s .disappeared = some q' → Reacts q s changes elapsed .addQuestions q'
  | quiet {u : News n} :
      (changes = 0 ∨ (q.sinsts s).state = .init ∧ changes < 0 ∨
        changes ≠ -1 ∧ (q.sinsts s).isReady = false ∧ (q.sinsts s).state ≠ .clean) →
      Reacts q s changes elapsed (.got u) q
  | pending {u : News n} : (q.sinsts s).state = .clean → changes ≠ -1 →
      (q.sinsts s).isReady = false → Reacts q s changes elapsed (.got u) (q.setState s .updating)
  | gone {u : News n} {q' : Querier n k} : (q.sinsts s).state ≠ .init → changes = -1 →
      callbackOn q s .disappeared = some q' → Reacts q s changes elapsed (.got u) q'
  | discovered {u : News n} {q' : Querier n k} : (q.sinsts s).state = .init → 0 < changes →
      (q.sinsts s).isReady = true → callbackOn q s .discovered = some q' →
      Reacts q s changes elapsed (.got u) (q'.setState s .clean)
  | updated {u : News n} {q' : Querier n k} : (q.sinsts s).state ≠ .init → changes ≠ 0 →
      changes ≠ -1 → (q.sinsts s).isReady = true → callbackOn q s .updated = some q' →
      Reacts q s changes elapsed (.got u) (q'.setState s .clean)

theorem setState_self {st : SinstState} (h : (q.sinsts s).state = st) :
    q.setState s st = q := by
  subst h
  simp [Querier.setState, Querier.setSinst]

theorem callbackOn_eq_some {status : Status} :
    callbackOn q s status = some q' ↔ ∃ c, (q.sinsts s).smon = some c ∧
      q' = { q with log := ⟨some s, (q.sinsts s).isReady, (q.smons c).session, (q.sinsts s).fqsn, (q.sinsts s).servname,
        (q.sinsts s).servtype, (q.sinsts s).proto, (q.sinsts s).domain, status, (q.sinsts s).port, (q.sinsts s).ipaddr,
        (q.sinsts s).keyvals⟩ :: q.log } := by
  simp only [callbackOn, doCallback, bind_eq_bind, bind_eq_some_iff, Option.pure_def,
    some.injEq]
  exact exists_congr (fun c => and_congr_right (fun _ => eq_comm))

theorem bind_pair_eq_some {α β γ : Type} {x : Option (α × β)} {f : α × β → Option γ} {c : γ} :
    (x >>= f) = some c ↔ ∃ a b, x = some (a, b) ∧ f (a, b) = some c := by
  simp only [bind_eq_bind, bind_eq_some_iff, Prod.exists]

theorem reacts_of_lostArec (h : sinstReact q s .lostArec changes elapsed = some (q', ret)) :
    Reacts q s changes elapsed .lostArec q' := by
  unfold sinstReact at h
  cases hst : (q.sinsts s).state with
  | init =>
    simp only [hst, bind_eq_bind, bind_eq_some_iff, Option.pure_def, some.injEq,
      Prod.mk.injEq] at h
    obtain ⟨q₁, hq, rfl, -⟩ := h
    exact .lost hst hq
  | _ =>
    simp only [hst, bind_eq_bind, bind_eq_some_iff, Option.pure_def, some.injEq,
      Prod.mk.injEq] at h
    obtain ⟨q₁, hq, q₂, hcb, rfl, -⟩ := h
    exact .lostShown (by simp [hst]) hq hcb

theorem sinstReact_addQuestions (h : sinstReact q s .addQuestions changes elapsed = some (q', ret)) :
    ∃ q₁ r, applyElapsed q s elapsed = some (q₁, r) ∧
      ((r = -1 ∧ (q.sinsts s).state ≠ .init ∧ callbackOn q₁ s .disappeared = some q' ∧ ret = 0) ∨
        (r = 1 ∧ (q.sinsts s).state = .clean ∧
          q' = (q₁.setSinst s { q₁.sinsts s with hasSrv := false }).setState s .updating ∧ ret = 1) ∨
        ((r = -1 → (q.sinsts s).state = .init) ∧ q' = q₁ ∧ (r = 1 → ret = 1))) := by
  unfold sinstReact at h
  cases hst : (q.sinsts s).state with
  | init =>
    simp only [hst] at h
    obtain ⟨q₁, r, hq, h⟩ := bind_pair_eq_some.mp h
    cases h
    refine ⟨q₁, r, hq, .inr (.inr ⟨fun _ => rfl, rfl, ?_⟩)⟩
    rintro rfl
    rfl
  | clean =>
    simp only [hst] at h
    obtain ⟨q₁, r, hq, h⟩ := bind_pair_eq_some.mp h
    refine ⟨q₁, r, hq, ?_⟩
    split at h
    · next hr =>
      simp only [bind_eq_bind, bind_eq_some_iff, Option.pure_def, some.injEq, Prod.mk.injEq] at h
      obtain ⟨q₂, hcb, rfl, rfl⟩ := h
      exact .inl ⟨hr, nofun, hcb, rfl⟩
    · next hr =>
      split at h
      · next hr1 =>
        cases h
        exact .inr (.inl ⟨hr1, rfl, rfl, rfl⟩)
      · next hr1 =>
        cases h
        exact .inr (.inr ⟨fun h => absurd h hr, rfl, fun h => absurd h hr1⟩)
  | updating =>
    simp only [hst] at h
    obtain ⟨q₁, r, hq, h⟩ := bind_pair_eq_some.mp h
    refine ⟨q₁, r, hq, ?_⟩
    split at h
    · next hr =>
      simp only [bind_eq_bind, bind_eq_some_iff, Option.pure_def, some.injEq, Prod.mk.injEq] at h
      obtain ⟨q₂, hcb, rfl, rfl⟩ := h
      exact .inl ⟨hr, nofun, hcb, rfl⟩
    · next hr =>
      cases h
      exact .inr (.inr ⟨fun h => absurd h hr, rfl, id⟩)

theorem reacts_of_addQuestions (h : sinstReact q s .addQuestions changes elapsed = some (q', ret)) :
    Reacts q s changes elapsed .addQuestions q' := by
  obtain ⟨q₁, r, hq, ⟨rfl, hst, hcb, -⟩ | ⟨rfl, hst, rfl, -⟩ | ⟨hinit, rfl, -⟩⟩ := sinstReact_addQuestions h
  · exact .expiredShown hst hq hcb
  · exact .asked hst hq
  · by_cases hr : r = -1
    · exact .expired (hinit hr) (hr ▸ hq)
    · exact .aged hq hr

theorem reacts_of_got {u : News n}
    (h : sinstReact q s (.got u) changes elapsed = some (q', ret)) : Reacts q s changes elapsed (.got u) q' := by
  unfold sinstReact at h
  cases hst : (q.sinsts s).state with
  | init =>
    simp only [hst] at h
    by_cases hc : changes ≤ 0
    · simp only [if_pos hc, Option.pure_def, some.injEq, Prod.mk.injEq] at h
      obtain ⟨rfl, -⟩ := h
      rcases Int.lt_or_eq_of_le hc with hlt | h0
      · exact .quiet (.inr (.inl ⟨hst, hlt⟩))
      · exact .quiet (.inl h0)
    · by_cases hr : (q.sinsts s).isReady = true
      · simp only [if_neg hc, hr, if_true, bind_eq_bind, bind_eq_some_iff, Option.pure_def,
          some.injEq, Prod.mk.injEq] at h
        obtain ⟨q₁, hcb, rfl, -⟩ := h
        exact .discovered hst (Int.not_le.mp hc) hr hcb
      · simp only [if_neg hc, if_neg hr, Option.pure_def, some.injEq, Prod.mk.injEq] at h
        obtain ⟨rfl, -⟩ := h
        exact .quiet (.inr (.inr ⟨by omega, Bool.eq_false_iff.mpr hr, by simp [hst]⟩))
  | clean =>
    simp only [hst] at h
    by_cases h0 : changes = 0
    · simp only [if_pos h0, Option.pure_def, some.injEq, Prod.mk.injEq] at h
      obtain ⟨rfl, -⟩ := h
      exact .quiet (.inl h0)
    · by_cases h1 : changes = -1
      · simp only [if_neg h0, if_pos h1, bind_eq_bind, bind_eq_some_iff, Option.pure_def,
          some.injEq, Prod.mk.injEq] at h
        obtain ⟨q₁, hcb, rfl, -⟩ := h
        exact .gone (by simp [hst]) h1 hcb
      · by_cases hr : (q.sinsts s).isReady = true
        · simp only [if_neg h0, if_neg h1, hr, if_true, bind_eq_bind, bind_eq_some_iff,
            Option.pure_def, some.injEq, Prod.mk.injEq] at h
          obtain ⟨q₁, hcb, rfl, -⟩ := h
          -- the state is clean already
          have hsame : q₁.setState s .clean = q₁ := by
            obtain ⟨c, -, rfl⟩ := callbackOn_eq_some.mp hcb
            exact setState_self hst
          rw [← hsame]
          exact .updated (by simp [hst]) h0 h1 hr hcb
        · simp only [if_neg h0, if_neg h1, if_neg hr, Option.pure_def, some.injEq, Prod.mk.injEq] at h
          obtain ⟨rfl, -⟩ := h
          exact .pending hst h1 (Bool.eq_false_iff.mpr hr)
  | updating =>
    simp only [hst] at h
    by_cases h0 : changes = 0
    · simp only [if_pos h0, Option.pure_def, some.injEq, Prod.mk.injEq] at h
      obtain ⟨rfl, -⟩ := h
      exact .quiet (.inl h0)
    · by_cases h1 : changes = -1
      · simp only [if_neg h0, if_pos h1, bind_eq_bind, bind_eq_some_iff, Option.pure_def,
          some.injEq, Prod.mk.injEq] at h
        obtain ⟨q₁, hcb, rfl, -⟩ := h
        exact .gone (by simp [hst]) h1 hcb
      · by_cases hr : (q.sinsts s).isReady = true
        · simp only [if_neg h0, if_neg h1, hr, if_true, bind_eq_bind, bind_eq_some_iff,
            Option.pure_def, some.injEq, Prod.mk.injEq] at h
          obtain ⟨q₁, hcb, rfl, -⟩ := h
          exact .updated (by simp [hst]) h0 h1 hr hcb
        · simp only [if_neg h0, if_neg h1, if_neg hr, Option.pure_def, some.injEq, Prod.mk.injEq] at h
          obtain ⟨rfl, -⟩ := h
          exact .quiet (.inr (.inr ⟨h1, Bool.eq_false_iff.mpr hr, by simp [hst]⟩))

theorem updateSinst_eq_some {fuel : Nat} {e : SinstEvent n}
    (h : updateSinst fuel q s e elapsed = some (q', ret)) :
    ∃ q₁ changes, sinstChanges fuel q s e elapsed = some (q₁, changes) ∧ Reacts q₁ s changes elapsed e q' := by
  unfold updateSinst at h
  obtain ⟨q₁, changes, hc, h⟩ := bind_pair_eq_some.mp h
  obtain ⟨q₂, changes', hr, h⟩ := bind_pair_eq_some.mp h
  simp only [Option.pure_def, some.injEq, Prod.mk.injEq] at h
  obtain ⟨rfl, -⟩ := h
  refine ⟨q₁, changes, hc, ?_⟩
  cases e with
  | got u => exact reacts_of_got hr
  | lostArec => exact reacts_of_lostArec hr
  | addQuestions => exact reacts_of_addQuestions hr

theorem alertSinst_eq_some {e : SinstEvent n} (h : alertSinst e q s = some q') :
    ∃ q₁ changes, sinstChanges 0 q s e 0 = some (q₁, changes) ∧ Reacts q₁ s changes 0 e q' := by
  obtain ⟨⟨q₂, ret⟩, hu, rfl⟩ := map_eq_some_iff.mp h
  exact updateSinst_eq_some hu

end Mdns
