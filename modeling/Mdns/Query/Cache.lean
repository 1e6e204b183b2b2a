import Mdns.Query.Refine
import Mdns.Query.Event

/-!
# The loops of the querier refine the registry

The functions on an A record, the steps of `update_service_cache` and the passes of
`prepare_query` are sequences of moves, from any querier whose registry is linked.
-/
namespace Mdns
open Lib List Option

variable {n k : Nat}

structure Advances (mayMove : Policy n k) (live : List (Fin k)) (q q' : Querier n k) : Prop where
  moves : Registry.Moves WfName plainLabels mayMove live q.reg q'.reg
  active : q'.smonsActive = q.smonsActive

variable {mayMove : Policy n k} {live own : List (Fin k)} {q q₁ q' : Querier n k} {s a : Fin n} {c : Fin k}

theorem Advances.trans (h : Advances mayMove live q q₁) (h' : Advances mayMove live q₁ q') :
    Advances mayMove live q q' :=
  ⟨h.moves.trans h'.moves, h'.active.trans h.active⟩

theorem Handles.advances (h : Handles mayMove live q s q') : Advances mayMove live q q' := ⟨h.moves, h.active⟩

theorem advances_of_reg (h : q'.reg = q.reg) (hactive : q'.smonsActive = q.smonsActive) : Advances mayMove live q q' :=
  ⟨by rw [h]; exact .refl, hactive⟩

theorem Advances.refl (q : Querier n k) : Advances mayMove live q q := advances_of_reg rfl rfl

theorem Advances.linked (h : Advances mayMove live q q') (hl : q.reg.Linked own) (hlive : live ⊆ own) :
    q'.reg.Linked own := h.moves.linked hl hlive

theorem runAll_advances {σ : Type} (view : σ → Querier n k) (ok : ServiceInstance n k → Prop)
    {f : σ → Fin n → Option σ}
    (hstep : ∀ st s st', (view st).reg.Linked live → s ∉ (view st).sinstsFree → ok ((view st).sinsts s) →
      f st s = some st' → Handles mayMove live (view st) s (view st'))
    {slots : List (Fin n)} {st st' : σ} (h : runAll f slots st = some st') (hnodup : slots.Nodup)
    (hl : (view st).reg.Linked live) (hfree : ∀ t ∈ slots, t ∉ (view st).sinstsFree)
    (hok : ∀ t ∈ slots, ok ((view st).sinsts t)) : Advances mayMove live (view st) (view st') := by
  induction slots generalizing st with
  | nil =>
    cases h
    exact .refl _
  | cons s slots ih =>
    obtain ⟨st₁, hs, h⟩ := runAll_cons_eq_some.mp h
    obtain ⟨hnot, hnodup⟩ := nodup_cons.mp hnodup
    have hh := hstep st s st₁ hl (hfree s (mem_cons_self ..)) (hok s (mem_cons_self ..)) hs
    have hne : ∀ t ∈ slots, t ≠ s := by
      rintro t ht rfl
      exact hnot ht
    refine hh.advances.trans (ih h hnodup (hh.moves.linked hl (List.Subset.refl _)) (fun t ht => ?_) (fun t ht => ?_))
    · rw [hh.freed t (hne t ht)]
      exact hfree t (mem_cons_of_mem s ht)
    · rw [hh.others t (hne t ht)]
      exact hok t (mem_cons_of_mem s ht)

section arec
variable (hself : ∀ (r : Registry (Fin n) (Fin n) (Fin k) Mem) (s a : Fin n), r.host s = some a → mayMove r s a)
  {e : SinstEvent n} {elapsed : Nat}
include hself

theorem alertSinst_handles (he : e = .lostArec ∨ e = .got (.arec a)) (hl : q.reg.Linked live)
    (hs : s ∉ q.sinstsFree) (ha : (q.sinsts s).arec = some a) (h : alertSinst e q s = some q') :
    Handles mayMove live q s q' := by
  obtain ⟨⟨q₁, ret⟩, hu, rfl⟩ := map_eq_some_iff.mp h
  refine handles_of_updateSinst hu hl hs ?_
  rcases he with rfl | rfl
  · trivial
  · exact ⟨hl.hosted s a hs ha, hself q.reg s a ha⟩

theorem alertAll_advances (he : e = .lostArec ∨ e = .got (.arec a)) (hl : q.reg.Linked live)
    (h : runAll (alertSinst e) (q.arecs a).sinsts q = some q') : Advances mayMove live q q' :=
  runAll_advances id (fun i => i.arec = some a) (fun _ _ _ hl hs ha h => alertSinst_handles hself he hl hs ha h) h
    (hl.referrers.nodup a) hl (fun t ht => ((hl.referrers.mem_iff a t).mp ht).1)
    (fun t ht => ((hl.referrers.mem_iff a t).mp ht).2)

theorem alertIp_advances {ipaddr : Nat} (hl : q.reg.Linked live) (h : alertIp q a ipaddr = some q') :
    Advances mayMove live q q' := by
  rw [alertIp_eq] at h
  split at h
  · cases h
    exact .refl _
  · have hreg : (q.setArec a { q.arecs a with ipaddr }).reg = q.reg := reg_setArec rfl rfl
    refine .trans (advances_of_reg hreg rfl) (alertAll_advances (a := a) hself (.inr rfl) (hreg ▸ hl) ?_)
    rw [setArec_self]
    exact h

theorem evictArec_advances (hl : q.reg.Linked live) (h : evictArec q a = some q') : Advances mayMove live q q' := by
  obtain ⟨q₁, h₁, -, rfl⟩ := evictArec_eq_some h
  exact (alertAll_advances hself (.inl rfl) hl h₁).trans (advances_of_reg (reg_setArec rfl rfl) rfl)

theorem updateArecRx_advances {m : Message} {r : Resource} (hl : q.reg.Linked live)
    (h : updateArecRx q a m r = some q') : Advances mayMove live q q' := by
  rcases updateArecRx_eq_some h with ⟨-, h⟩ | ⟨-, q₁, h₁, rfl⟩
  · exact evictArec_advances hself hl h
  · have hreg : (q.setArec a { q.arecs a with state := .resolved }).reg = q.reg := reg_setArec rfl rfl
    refine .trans (advances_of_reg hreg rfl) (.trans (alertIp_advances hself (hreg ▸ hl) h₁) ?_)
    exact advances_of_reg (reg_setArec rfl rfl) rfl

theorem updateArecAdd_advances {ret : Int} (hl : q.reg.Linked live)
    (h : updateArecAdd q a elapsed = some (q', ret)) : Advances mayMove live q q' := by
  have hage : (q.setArec a ((q.arecs a).age elapsed)).reg = q.reg := reg_setArec rfl rfl
  unfold updateArecAdd at h
  split at h
  · cases h
    exact advances_of_reg (reg_setArec rfl rfl) rfl
  · dsimp only at h
    split at h
    · simp only [bind_eq_bind, bind_eq_some_iff, Option.pure_def, some.injEq, Prod.mk.injEq] at h
      obtain ⟨q₁, h₁, rfl, -⟩ := h
      exact .trans (advances_of_reg hage rfl) (evictArec_advances hself (hage ▸ hl) h₁)
    · split at h <;> cases h
      · exact advances_of_reg (reg_setArec rfl rfl) rfl
      · exact advances_of_reg hage rfl
  · dsimp only at h
    split at h <;> cases h
    · exact advances_of_reg (reg_setArec rfl rfl) rfl
    · exact advances_of_reg hage rfl

theorem arecSched_advances {st st' : Sched n k} (hl : st.q.reg.Linked live)
    (h : arecSched elapsed st a = some st') : Advances mayMove live st.q st'.q := by
  obtain ⟨q₁, ret, h₁, h⟩ := bind_pair_eq_some.mp h
  cases h
  exact updateArecAdd_advances hself hl h₁

end arec

section prepare
variable {elapsed : Nat} {st st' : Sched n k}

theorem sinstSched_handles (hl : st.q.reg.Linked live) (hs : s ∉ st.q.sinstsFree)
    (h : sinstSched elapsed st s = some st') : Handles mayMove live st.q s st'.q := by
  obtain ⟨q₁, ret, h₁, h⟩ := bind_pair_eq_some.mp h
  cases h
  exact handles_of_updateSinst h₁ hl hs trivial

theorem refreshMonitor_reg (elapsed : Nat) (st : Sched n k) (c : Fin k) :
    ((refreshMonitor elapsed st c).1.q.reg = st.q.reg ∧
      (refreshMonitor elapsed st c).1.q.smonsActive = st.q.smonsActive) ∧
    ∀ st', (refreshMonitor elapsed st c).2 = some st' →
      st'.q.reg = st.q.reg ∧ st'.q.smonsActive = st.q.smonsActive := by
  unfold refreshMonitor
  dsimp only
  split
  · split
    · exact ⟨⟨reg_setSmon rfl rfl rfl, rfl⟩, nofun⟩
    · next tx _ =>
      refine ⟨⟨reg_setSmon rfl rfl rfl, rfl⟩, fun st' h => ?_⟩
      cases h
      exact ⟨reg_setSmon (q := { st.q with tx }) (m := (st.q.smons c).refresh st.q.tx.cur) rfl rfl rfl, rfl⟩
  · refine ⟨⟨reg_setSmon rfl rfl rfl, rfl⟩, fun st' h => ?_⟩
    cases h
    exact ⟨reg_setSmon rfl rfl rfl, rfl⟩

theorem queryMonitors_advances {cs : List (Fin k)} {all : Bool} (hl : st.q.reg.Linked live)
    (h : queryMonitors elapsed cs st = some (st', all)) : Advances mayMove live st.q st'.q := by
  induction cs generalizing st with
  | nil =>
    cases h
    exact .refl _
  | cons c cs ih =>
    obtain ⟨⟨hreg₁, hact₁⟩, hreg₂⟩ := refreshMonitor_reg elapsed st c
    unfold queryMonitors at h
    split at h
    · next st₁ heq =>
      cases h
      rw [heq] at hreg₁ hact₁
      exact advances_of_reg hreg₁ hact₁
    · next st₁ st₂ heq =>
      rw [heq] at hreg₂
      obtain ⟨hreg, hact⟩ := hreg₂ st₂ rfl
      have hl₂ : st₂.q.reg.Linked live := hreg ▸ hl
      simp only [bind_eq_bind, bind_eq_some_iff] at h
      obtain ⟨st₃, h₃, h⟩ := h
      have h₂₃ : Advances mayMove live st₂.q st₃.q :=
        runAll_advances Sched.q (fun _ => True)
          (fun _ _ _ hl hs _ h => sinstSched_handles hl hs h) h₃ (hl₂.members.nodup c) hl₂
          (fun t ht => ((hl₂.members.mem_iff c t).mp ht).1) (fun _ _ => trivial)
      exact .trans (advances_of_reg hreg hact) (h₂₃.trans (ih (h₂₃.linked hl₂ (List.Subset.refl _)) h))

theorem answerMonitor_reg (st : Sched n k) (c : Fin k) :
    (answerMonitor st c).q.reg = st.q.reg ∧ (answerMonitor st c).q.smonsActive = st.q.smonsActive := by
  unfold answerMonitor
  dsimp only
  split
  · exact ⟨reg_setSmon rfl rfl rfl, rfl⟩
  · exact ⟨rfl, rfl⟩

theorem answerMonitors_reg (cs : List (Fin k)) (st : Sched n k) :
    (cs.foldl answerMonitor st).q.reg = st.q.reg ∧ (cs.foldl answerMonitor st).q.smonsActive = st.q.smonsActive := by
  induction cs generalizing st with
  | nil => exact ⟨rfl, rfl⟩
  | cons c cs ih =>
    obtain ⟨h1, h2⟩ := answerMonitor_reg st c
    obtain ⟨h3, h4⟩ := ih (answerMonitor st c)
    exact ⟨h3.trans h1, h4.trans h2⟩

theorem answerMonitors_frame (cs : List (Fin k)) (st : Sched n k) :
    (cs.foldl answerMonitor st).q.sinsts = st.q.sinsts ∧ (cs.foldl answerMonitor st).q.log = st.q.log := by
  induction cs generalizing st with
  | nil => exact ⟨rfl, rfl⟩
  | cons c cs ih =>
    have hone : (answerMonitor st c).q.sinsts = st.q.sinsts ∧ (answerMonitor st c).q.log = st.q.log := by
      unfold answerMonitor
      dsimp only
      split <;> exact ⟨rfl, rfl⟩
    obtain ⟨h1, h2⟩ := ih (answerMonitor st c)
    exact ⟨h1.trans hone.1, h2.trans hone.2⟩

theorem prepareQuery_advances
    (hself : ∀ (r : Registry (Fin n) (Fin n) (Fin k) Mem) (s a : Fin n), r.host s = some a → mayMove r s a)
    (hl : q.reg.Linked live) (h : prepareQuery elapsed q = some st') : Advances mayMove live q st'.q := by
  unfold prepareQuery at h
  simp only [bind_eq_bind, bind_eq_some_iff] at h
  obtain ⟨st₁, h₁, h⟩ := h
  have hq₁ : Advances mayMove live q st₁.q := by
    refine runAll_keeps (I := fun st => Advances mayMove live q st.q) ?_ h₁ (advances_of_reg rfl rfl)
    intro st a st' hst hadv
    exact hadv.trans (arecSched_advances hself (hadv.linked hl (List.Subset.refl _)) hst)
  obtain ⟨⟨st₂, all⟩, h₂, h⟩ := h
  have hq₂ := hq₁.trans (queryMonitors_advances (hq₁.linked hl (List.Subset.refl _)) h₂)
  split at h
  · split at h
    · cases h
      exact hq₂
    · cases h
      obtain ⟨hreg, hact⟩ := answerMonitors_reg st₂.q.smonsActive st₂
      exact hq₂.trans (advances_of_reg hreg hact)
  · cases h
    exact hq₂

end prepare

end Mdns
