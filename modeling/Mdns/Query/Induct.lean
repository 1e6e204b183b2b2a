import Mdns.Query.Table

/-!
# Induction over the calls of a run

Some invariants are broken by single effects and restored by the end of the call that has them.
Such an invariant is kept by every run if each call keeps it, and the calls may rely on a tidy
state.
-/
namespace Mdns
open Lib Option

variable {n k : Nat} {G : Guard n k} {P : Querier n k → Prop} {q q' : Querier n k} {fuel elapsed : Nat}

structure SameTables (q q' : Querier n k) : Prop where
  sinsts : q'.sinsts = q.sinsts
  free : q'.sinstsFree = q.sinstsFree
  arecs : q'.arecs = q.arecs
  arecsFree : q'.arecsFree = q.arecsFree
  log : q'.log = q.log

theorem SameTables.refl (q : Querier n k) : SameTables q q := ⟨rfl, rfl, rfl, rfl, rfl⟩

theorem SameTables.trans {q₁ : Querier n k} (h : SameTables q q₁) (h' : SameTables q₁ q') : SameTables q q' :=
  ⟨h'.sinsts.trans h.sinsts, h'.free.trans h.free, h'.arecs.trans h.arecs, h'.arecsFree.trans h.arecsFree,
    h'.log.trans h.log⟩

structure KeptByCalls (G : Guard n k) (P : Querier n k → Prop) : Prop where
  same : ∀ {q q' : Querier n k}, SameTables q q' → P q → P q'
  clean : ∀ {q q' : Querier n k} {s : Fin n}, cleanupSinst q s = some q' → P q → P q'
  ptr : ∀ {fuel elapsed : Nat} {q q' : Querier n k} {m m' : Message} {ptr : Resource}, q.Tidy →
    TakesPtr fuel elapsed q m ptr q' m' → P q → P q'
  txt : ∀ {fuel elapsed : Nat} {q q' : Querier n k} {m : Message} {r : Resource} {s : Fin n} {ret : Int}, q.Tidy →
    G.txt fuel m q r s = true → updateSinst fuel q s (.got (.txt m r)) elapsed = some (q', ret) → P q → P q'
  srv : ∀ {fuel elapsed : Nat} {q q' : Querier n k} {m : Message} {r : Resource} {s : Fin n} {ret : Int}, q.Tidy →
    G.srv fuel m q r s = true → updateSinst fuel q s (.got (.srv m r)) elapsed = some (q', ret) → P q → P q'
  a : ∀ {q q' : Querier n k} {m : Message} {r : Resource} {a : Fin n}, q.Tidy → a ∈ q.arecsActive →
    G.a m q r a = true → updateArecRx q a m r = some q' → P q → P q'
  turn : ∀ {elapsed : Nat} {q q' : Querier n k} {a : Fin n} {ret : Int}, q.Tidy →
    ArecTurn q a elapsed q' ret → P q → P q'
  ask : ∀ {elapsed : Nat} {q q' : Querier n k} {s : Fin n} {ret : Int}, q.Tidy →
    updateSinst 0 q s .addQuestions elapsed = some (q', ret) → P q → P q'

section response
variable {m : Message} {r : Resource}

theorem KeptByCalls.txtStep (h : KeptByCalls G P)
    (hs : guarded (G.txtMet fuel m) (txtStep fuel elapsed m) q r = some q')
    (hq : q.Tidy ∧ P q) : q'.Tidy ∧ P q' := by
  obtain ⟨hmet, hs⟩ := guarded_eq_some.mp hs
  refine ⟨Effects.tidy (txtStep_effects hs) hq.1, ?_⟩
  rcases txtStep_eq_some hs with ⟨-, rfl⟩ | ⟨s, ret, hinst, hu⟩
  · exact hq.2
  · rw [Guard.txtMet, hinst] at hmet
    exact h.txt hq.1 hmet hu hq.2

theorem KeptByCalls.srvStep (h : KeptByCalls G P)
    (hs : guarded (G.srvMet fuel m) (srvStep fuel elapsed m) q r = some q')
    (hq : q.Tidy ∧ P q) : q'.Tidy ∧ P q' := by
  obtain ⟨hmet, hs⟩ := guarded_eq_some.mp hs
  refine ⟨Effects.tidy (srvStep_effects hs) hq.1, ?_⟩
  rcases srvStep_eq_some hs with ⟨-, rfl⟩ | ⟨s, ret, hinst, hu⟩
  · exact hq.2
  · rw [Guard.srvMet, hinst] at hmet
    exact h.srv hq.1 hmet hu hq.2

theorem KeptByCalls.aStep (h : KeptByCalls G P) (hs : guarded (G.aMet fuel m) (aStep fuel m) q r = some q')
    (hq : q.Tidy ∧ P q) : q'.Tidy ∧ P q' := by
  obtain ⟨hmet, hs⟩ := guarded_eq_some.mp hs
  refine ⟨Effects.tidy (aStep_effects hs) hq.1, ?_⟩
  rcases aStep_eq_some hs with ⟨-, rfl⟩ | ⟨a, hfind, hu⟩
  · exact hq.2
  · rw [Guard.aMet, hfind] at hmet
    exact h.a hq.1 (findFirst_mem hfind).1 hmet hu hq.2

theorem KeptByCalls.cache (h : KeptByCalls G P) (hs : guardedCache G fuel elapsed q m = some q') (hq : q.Tidy ∧ P q) :
    q'.Tidy ∧ P q' := by
  rcases guardedCache_eq_some hs with ⟨-, rfl⟩ | ⟨q₁, m₁, q₂, q₃, -, hptr, htxt, hsrv, ha⟩
  · exact hq
  · have h₁ : q₁.Tidy ∧ P q₁ := by
      refine runAll_keeps (I := fun st : Querier n k × Message => st.1.Tidy ∧ P st.1) ?_ hptr hq
      intro st ptr st' hs hI
      have htakes := takesPtr_of_ptrStep hs
      exact ⟨Effects.tidy htakes.effects hI.1, h.ptr hI.1 htakes hI.2⟩
    have h₂ : q₂.Tidy ∧ P q₂ := runAll_keeps (I := fun q => q.Tidy ∧ P q) (fun _ _ _ hs hI => h.txtStep hs hI) htxt h₁
    have h₃ : q₃.Tidy ∧ P q₃ := runAll_keeps (I := fun q => q.Tidy ∧ P q) (fun _ _ _ hs hI => h.srvStep hs hI) hsrv h₂
    exact runAll_keeps (I := fun q => q.Tidy ∧ P q) (fun _ _ _ hs hI => h.aStep hs hI) ha h₃

end response

section prepare
variable {st st' : Sched n k}

theorem refreshMonitor_same (elapsed : Nat) (st : Sched n k) (c : Fin k) :
    SameTables st.q (refreshMonitor elapsed st c).1.q ∧
    ∀ st', (refreshMonitor elapsed st c).2 = some st' → SameTables st.q st'.q := by
  unfold refreshMonitor
  dsimp only
  split
  · split
    · exact ⟨⟨rfl, rfl, rfl, rfl, rfl⟩, nofun⟩
    · refine ⟨⟨rfl, rfl, rfl, rfl, rfl⟩, ?_⟩
      intro st' hst'
      cases hst'
      exact ⟨rfl, rfl, rfl, rfl, rfl⟩
  · refine ⟨⟨rfl, rfl, rfl, rfl, rfl⟩, ?_⟩
    intro st' hst'
    cases hst'
    exact ⟨rfl, rfl, rfl, rfl, rfl⟩

theorem answerMonitors_same (cs : List (Fin k)) (st : Sched n k) : SameTables st.q (cs.foldl answerMonitor st).q := by
  induction cs generalizing st with
  | nil => exact .refl st.q
  | cons c cs ih =>
    have hone : SameTables st.q (answerMonitor st c).q := by
      unfold answerMonitor
      dsimp only
      split
      · exact ⟨rfl, rfl, rfl, rfl, rfl⟩
      · exact .refl st.q
    exact hone.trans (ih (answerMonitor st c))

theorem KeptByCalls.arecSched (h : KeptByCalls G P) {a : Fin n}
    (hs : arecSched elapsed st a = some st') (hq : st.q.Tidy ∧ P st.q) : st'.q.Tidy ∧ P st'.q := by
  obtain ⟨ret, hturn, -, -⟩ := arecSched_eq_some hs
  exact ⟨Effects.tidy hturn.effects hq.1, h.turn hq.1 hturn hq.2⟩

theorem KeptByCalls.sinstSched (h : KeptByCalls G P) {s : Fin n}
    (hs : sinstSched elapsed st s = some st') (hq : st.q.Tidy ∧ P st.q) : st'.q.Tidy ∧ P st'.q := by
  refine ⟨Effects.tidy (sinstSched_effects hs) hq.1, ?_⟩
  obtain ⟨q₁, ret, hu, hs⟩ := bind_pair_eq_some.mp hs
  cases hs
  exact h.ask hq.1 hu hq.2

theorem KeptByCalls.queryMonitors (h : KeptByCalls G P) {cs : List (Fin k)} {all : Bool}
    (hs : queryMonitors elapsed cs st = some (st', all)) (hq : st.q.Tidy ∧ P st.q) : P st'.q := by
  induction cs generalizing st with
  | nil =>
    cases hs
    exact hq.2
  | cons c cs ih =>
    obtain ⟨hsame, hnext⟩ := refreshMonitor_same elapsed st c
    have heffects : ∀ st', (refreshMonitor elapsed st c).2 = some st' → Effects (fun _ => True) st.q st'.q :=
      (refreshMonitor_effects elapsed st c).2
    unfold Mdns.queryMonitors at hs
    split at hs
    · next st₁ heq =>
      cases hs
      rw [heq] at hsame
      exact h.same hsame hq.2
    · next st₁ st₂ heq =>
      have hst₂ : (refreshMonitor elapsed st c).2 = some st₂ := by rw [heq]
      have hq₂ : st₂.q.Tidy ∧ P st₂.q := ⟨Effects.tidy (heffects st₂ hst₂) hq.1, h.same (hnext st₂ hst₂) hq.2⟩
      simp only [bind_eq_bind, bind_eq_some_iff] at hs
      obtain ⟨st₃, h₃, hs⟩ := hs
      exact ih hs (runAll_keeps (I := fun st : Sched n k => st.q.Tidy ∧ P st.q)
        (fun _ _ _ hs hI => h.sinstSched hs hI) h₃ hq₂)

theorem KeptByCalls.prepare (h : KeptByCalls G P) (hs : prepareQuery elapsed q = some st')
    (hq : q.Tidy ∧ P q) : P st'.q := by
  unfold prepareQuery at hs
  simp only [bind_eq_bind, bind_eq_some_iff] at hs
  obtain ⟨st₁, h₁, ⟨st₂, all⟩, h₂, hs⟩ := hs
  have hinit : q.start.q.Tidy ∧ P q.start.q :=
    ⟨Effects.tidy (.single (.sends _)) hq.1, h.same (q := q) ⟨rfl, rfl, rfl, rfl, rfl⟩ hq.2⟩
  have hq₁ : st₁.q.Tidy ∧ P st₁.q :=
    runAll_keeps (I := fun st : Sched n k => st.q.Tidy ∧ P st.q) (fun _ _ _ hs hI => h.arecSched hs hI) h₁ hinit
  have hq₂ : P st₂.q := h.queryMonitors h₂ hq₁
  dsimp only at hs
  split at hs
  · split at hs
    · cases hs
      exact hq₂
    · cases hs
      exact h.same (answerMonitors_same st₂.q.smonsActive st₂) hq₂
  · cases hs
    exact hq₂

end prepare

section commands

theorem KeptByCalls.close (h : KeptByCalls G P) {c : Fin k} (hs : closeMonitor q c = some q') (hq : P q) : P q' := by
  unfold closeMonitor at hs
  simp only [bind_eq_bind, bind_eq_some_iff, Option.pure_def, some.injEq] at hs
  obtain ⟨active, -, q₁, hrun, rfl⟩ := hs
  have hq₀ : P { q with smonsActive := active } := h.same (q := q) ⟨rfl, rfl, rfl, rfl, rfl⟩ hq
  have hq₁ : P q₁ := runAll_keeps (fun _ _ _ hs hI => h.clean hs hI) hrun hq₀
  exact h.same (q := q₁) ⟨rfl, rfl, rfl, rfl, rfl⟩ hq₁

theorem addService_same {fqst : Mem} (hs : addService fuel q fqst = some q') : SameTables q q' := by
  unfold addService at hs
  simp only [bind_eq_bind, bind_eq_some_iff] at hs
  obtain ⟨found, -, hs⟩ := hs
  split at hs
  · cases hs
    exact .refl q
  · split at hs
    · cases hs
      exact .refl q
    · cases hs
      exact ⟨rfl, rfl, rfl, rfl, rfl⟩

theorem KeptByCalls.remove (h : KeptByCalls G P) {fqst : Mem} (hs : removeService fuel q fqst = some q')
    (hq : P q) : P q' := by
  unfold removeService at hs
  split at hs
  · exact runAll_keeps (fun _ _ _ hs hI => h.close hs hI) hs hq
  · simp only [bind_eq_bind, bind_eq_some_iff] at hs
    obtain ⟨found, -, hs⟩ := hs
    cases found with
    | none =>
      cases hs
      exact hq
    | some c => exact h.close hs hq

end commands

theorem KeptByCalls.step (h : KeptByCalls G P) {ev : Event} (ht : q.Tidy) (hs : guardedStep G fuel q ev = some q')
    (hq : P q) : P q' := by
  cases ev with
  | monitor fqst => exact h.same (addService_same hs) hq
  | unmonitor fqst => exact h.remove hs hq
  | prepare elapsed =>
    obtain ⟨st, hst, rfl⟩ := map_eq_some_iff.mp hs
    exact h.prepare hst ⟨ht, hq⟩
  | response data mlen elapsed =>
    unfold guardedStep at hs
    dsimp only at hs
    split at hs
    · exact (h.cache hs ⟨ht, hq⟩).2
    · cases hs
      exact hq
    · cases hs

theorem Run.keeps_calls (h : KeptByCalls G P) (hinit : P (queryLaunch n k)) (hr : Run G q) : P q := by
  induction hr with
  | launch => exact hinit
  | step hr hs ih => exact h.step hr.tidy hs ih

end Mdns
