import Mdns.Query.Move

/-!
# What the user has been told

The callbacks of one session for one name, as a word over the status codes. It may be continued with
an update or a disappearance if and only if a slot of that name is shown.
-/
namespace Mdns
open Lib List
open Function (update update_of_ne update_self)

variable {l : List Status}

set_option linter.unusedSectionVars false

inductive Rounds : List Status → Prop where
  | nil : Rounds []
  | cons {us rest : List Status} : (∀ u ∈ us, u = .updated) → Rounds rest →
      Rounds (.discovered :: (us ++ .disappeared :: rest))

def OpenRound (l : List Status) : Prop :=
  ∃ l₁ us, Rounds l₁ ∧ (∀ u ∈ us, u = .updated) ∧ l = l₁ ++ .discovered :: us

/-- Newest callback first: whether a round is open, if these are rounds at all. -/
def phase : List Status → Option Bool
  | [] => some false
  | st :: older => match phase older, st with
    | some false, .discovered => some true
    | some true, .updated => some true
    | some true, .disappeared => some false
    | _, _ => none

theorem Rounds.append {l' : List Status} (h : Rounds l) (h' : Rounds l') : Rounds (l ++ l') := by
  induction h with
  | nil => exact h'
  | @cons us rest hus _ ih =>
    have := Rounds.cons hus ih
    simpa using this

theorem OpenRound.close (h : OpenRound l) : Rounds (l ++ [.disappeared]) := by
  obtain ⟨l₁, us, h₁, hus, rfl⟩ := h
  have := h₁.append (.cons hus .nil)
  simpa using this

theorem OpenRound.update (h : OpenRound l) : OpenRound (l ++ [.updated]) := by
  obtain ⟨l₁, us, h₁, hus, rfl⟩ := h
  refine ⟨l₁, us ++ [.updated], h₁, fun u hu => ?_, by simp⟩
  rcases mem_append.mp hu with hu | hu
  · exact hus u hu
  · exact mem_singleton.mp hu

theorem phase_spec (l : List Status) :
    (phase l = some false → Rounds l.reverse) ∧ (phase l = some true → OpenRound l.reverse) := by
  induction l with
  | nil => exact ⟨fun _ => .nil, fun h => by cases h⟩
  | cons st l ih =>
    rw [reverse_cons]
    cases hp : phase l with
    | none => simp [phase, hp]
    | some b =>
      cases b with
      | false =>
        have hl := ih.1 hp
        cases st with
        | discovered => exact ⟨by simp [phase, hp], fun _ => ⟨l.reverse, [], hl, by simp, rfl⟩⟩
        | _ => simp [phase, hp]
      | true =>
        have hl := ih.2 hp
        cases st with
        | updated => exact ⟨by simp [phase, hp], fun _ => hl.update⟩
        | disappeared => exact ⟨fun _ => hl.close, by simp [phase, hp]⟩
        | _ => simp [phase, hp]

theorem rounds_of_phase {b : Bool} (h : phase l = some b) : ∃ rest, Rounds (l.reverse ++ rest) := by
  cases b with
  | false => exact ⟨[], by simpa using (phase_spec l).1 h⟩
  | true => exact ⟨[.disappeared], ((phase_spec l).2 h).close⟩

namespace Registry

variable {S A M N K : Type} [DecidableEq S] [DecidableEq A] [DecidableEq M] [DecidableEq K]
  {log : List (Notice N)} {name : N} {ready : Bool}

/-- The callbacks of a session for a name, newest first, without those for overflowing ones. -/
def told (key : N → K) (log : List (Notice N)) (σ : Nat) (x : K) : List Status :=
  (log.filter (fun e => e.session = σ ∧ key e.name = x ∧ e.status ≠ .cacheFull)).map Notice.status

theorem told_cons_same {key : N → K} {σ : Nat} {st : Status}
    (h : st ≠ .cacheFull) : told key (⟨σ, name, st, ready⟩ :: log) σ (key name) = st :: told key log σ (key name) := by
  simp [told, h]

theorem told_cons_other {key : N → K} {σ τ : Nat} {x : K} {st : Status}
    (h : ¬ (σ = τ ∧ key name = x ∧ st ≠ .cacheFull)) :
    told key (⟨σ, name, st, ready⟩ :: log) τ x = told key log τ x := by
  simp only [told]
  rw [filter_cons_of_neg (by simpa using h)]

def Shows (key : N → K) (r : Registry S A M N) (c : M) (x : K) : Prop :=
  ∃ s, s ∉ r.free ∧ r.owner s = some c ∧ r.shown s = true ∧ key (r.name s) = x

/-- The callbacks of every session are rounds, and those of a live owner have an open round
exactly for the names it shows. -/
structure Told (key : N → K) (live : List M) (r : Registry S A M N) : Prop where
  phases : ∀ σ x, ∃ b, phase (told key r.log σ x) = some b
  shows : ∀ c ∈ live, ∀ x, phase (told key r.log (r.session c) x) = some true ↔ r.Shows key c x
  distinct : ∀ s t, s ∉ r.free → t ∉ r.free → r.owner s = r.owner t → key (r.name s) = key (r.name t) → s = t
  session_lt : ∀ c ∈ live, r.session c < r.sessions
  session_inj : ∀ c ∈ live, ∀ d ∈ live, r.session c = r.session d → c = d
  logged : ∀ e ∈ r.log, e.session < r.sessions
  ready : ∀ e ∈ r.log, e.status = .discovered → e.ready = true

variable {wf : N → Prop} {key : N → K} {mayMove : Registry S A M N → S → A → Prop} {live own : List M}
  {r r' : Registry S A M N} {s : S} {c : M}

theorem Told.phase_false (h : Told key live r) (hc : c ∈ live) {x : K} (hx : ¬ r.Shows key c x) :
    phase (told key r.log (r.session c) x) = some false := by
  obtain ⟨b, hb⟩ := h.phases (r.session c) x
  cases b with
  | false => exact hb
  | true => exact absurd ((h.shows c hc x).mp hb) hx

theorem Told.tell_spec (h : Told key live r) (hc : c ∈ live) (name : N) (st : Status) (ready : Bool) {b : Bool}
    (hst : st ≠ .cacheFull) (hready : st = .discovered → ready = true)
    (hb : phase (st :: told key r.log (r.session c) (key name)) = some b) :
    (∀ σ x, ∃ b, phase (told key (r.tell c name st ready).log σ x) = some b) ∧
    (phase (told key (r.tell c name st ready).log (r.session c) (key name)) = some b) ∧
    (∀ d ∈ live, ∀ x, ¬ (d = c ∧ x = key name) →
      told key (r.tell c name st ready).log (r.session d) x = told key r.log (r.session d) x) ∧
    (∀ e ∈ (r.tell c name st ready).log, e.session < r.sessions) ∧
    (∀ e ∈ (r.tell c name st ready).log, e.status = .discovered → e.ready = true) := by
  refine ⟨fun σ x => ?_, ?_, fun d hd x hdx => ?_, fun e he => ?_, fun e he => ?_⟩
  · by_cases hσ : r.session c = σ ∧ key name = x
    · obtain ⟨rfl, rfl⟩ := hσ
      exact ⟨b, by rw [tell, told_cons_same hst]; exact hb⟩
    · rw [tell, told_cons_other (fun hh => hσ ⟨hh.1, hh.2.1⟩)]
      exact h.phases σ x
  · rw [tell, told_cons_same hst]
    exact hb
  · rw [tell, told_cons_other]
    rintro ⟨hs, hx, -⟩
    exact hdx ⟨(h.session_inj c hc d hd hs).symm, hx.symm⟩
  · rcases mem_cons.mp he with rfl | he
    · exact h.session_lt c hc
    · exact h.logged e he
  · rcases mem_cons.mp he with rfl | he
    · exact hready
    · exact h.ready e he

theorem Told.drop (h : Told key live r) (hs : ∀ c ∈ live, r.owner s = some c → r.shown s = false) :
    Told key live (r.release s) where
  phases := h.phases
  shows d hd x := by
    refine (h.shows d hd x).trans ⟨fun ⟨t, ht, ho, hsh, hx⟩ => ⟨t, ?_, ho, hsh, hx⟩, fun ⟨t, ht, hr⟩ =>
      ⟨t, ((not_mem_cons_iff t).mp ht).2, hr⟩⟩
    refine (not_mem_cons_iff t).mpr ⟨?_, ht⟩
    rintro rfl
    rw [hs d hd ho] at hsh
    cases hsh
  distinct t u ht hu := h.distinct t u ((not_mem_cons_iff t).mp ht).2 ((not_mem_cons_iff u).mp hu).2
  session_lt := h.session_lt
  session_inj := h.session_inj
  logged := h.logged
  ready := h.ready

theorem Told.vanish (h : Told key live r) (hs : s ∉ r.free) (hc : c ∈ live) (ho : r.owner s = some c)
    (hsh : r.shown s = true) : Told key live ((r.release s).tell c (r.name s) .disappeared ready) := by
  have hopen : phase (told key r.log (r.session c) (key (r.name s))) = some true :=
    (h.shows c hc _).mpr ⟨s, hs, ho, hsh, rfl⟩
  obtain ⟨hphases, hthis, hothers, hlogged, hreadies⟩ := h.tell_spec hc (r.name s) .disappeared ready (b := false)
    (by simp) (by simp) (by simp [phase, hopen])
  refine ⟨hphases, fun d hd x => ?_,
    fun t u ht hu => h.distinct t u ((not_mem_cons_iff t).mp ht).2 ((not_mem_cons_iff u).mp hu).2,
    h.session_lt, h.session_inj, hlogged, hreadies⟩
  by_cases hdx : d = c ∧ x = key (r.name s)
  · obtain ⟨rfl, rfl⟩ := hdx
    refine ⟨fun hp => ?_, fun ⟨t, ht, hot, _, hx⟩ => ?_⟩
    · cases (hthis.symm.trans hp)
    · obtain ⟨hts, htf⟩ := (not_mem_cons_iff t).mp ht
      exact absurd (h.distinct t s htf hs (hot.trans ho.symm) hx) hts
  · show phase (told key (r.tell c (r.name s) .disappeared ready).log (r.session d) x) = some true ↔ _
    rw [hothers d hd x hdx, h.shows d hd x]
    refine ⟨fun ⟨t, ht, hot, hsht, hx⟩ => ⟨t, (not_mem_cons_iff t).mpr ⟨?_, ht⟩, hot, hsht, hx⟩,
      fun ⟨t, ht, hr⟩ => ⟨t, ((not_mem_cons_iff t).mp ht).2, hr⟩⟩
    rintro rfl
    exact hdx ⟨Option.some.inj (hot.symm.trans ho), hx.symm⟩

theorem Told.discover (h : Told key live r) (hs : s ∉ r.free) (hc : c ∈ live) (ho : r.owner s = some c)
    (hsh : r.shown s = false) : Told key live ((r.tell c (r.name s) .discovered true).present s) := by
  have hhidden : ¬ r.Shows key c (key (r.name s)) := by
    rintro ⟨t, ht, hot, hsht, hx⟩
    rw [h.distinct t s ht hs (hot.trans ho.symm) hx, hsh] at hsht
    cases hsht
  obtain ⟨hphases, hthis, hothers, hlogged, hreadies⟩ := h.tell_spec hc (r.name s) .discovered true (b := true)
    (by simp) (fun _ => rfl) (by simp [phase, h.phase_false hc hhidden])
  have hshow : ∀ t, update r.shown s true t = true ↔ t = s ∨ r.shown t = true := by
    intro t
    by_cases hts : t = s
    · simp [hts]
    · simp [hts]
  refine ⟨hphases, fun d hd x => ?_, h.distinct, h.session_lt, h.session_inj, hlogged, hreadies⟩
  by_cases hdx : d = c ∧ x = key (r.name s)
  · obtain ⟨rfl, rfl⟩ := hdx
    exact ⟨fun _ => ⟨s, hs, ho, (hshow s).mpr (.inl rfl), rfl⟩, fun _ => hthis⟩
  · show phase (told key (r.tell c (r.name s) .discovered true).log (r.session d) x) = some true ↔ _
    rw [hothers d hd x hdx, h.shows d hd x]
    refine ⟨fun ⟨t, ht, hot, hsht, hx⟩ => ⟨t, ht, hot, (hshow t).mpr (.inr hsht), hx⟩,
      fun ⟨t, ht, hot, hsht, hx⟩ => ⟨t, ht, hot, ((hshow t).mp hsht).resolve_left ?_, hx⟩⟩
    rintro rfl
    exact hdx ⟨Option.some.inj (hot.symm.trans ho), hx.symm⟩

theorem Told.change (h : Told key live r) (hs : s ∉ r.free) (hc : c ∈ live) (ho : r.owner s = some c)
    (hsh : r.shown s = true) : Told key live (r.tell c (r.name s) .updated ready) := by
  have hshow : r.Shows key c (key (r.name s)) := ⟨s, hs, ho, hsh, rfl⟩
  obtain ⟨hphases, hthis, hothers, hlogged, hreadies⟩ := h.tell_spec hc (r.name s) .updated ready (b := true)
    (by simp) (by simp) (by simp [phase, (h.shows c hc _).mpr hshow])
  refine ⟨hphases, fun d hd x => ?_, h.distinct, h.session_lt, h.session_inj, hlogged, hreadies⟩
  by_cases hdx : d = c ∧ x = key (r.name s)
  · obtain ⟨rfl, rfl⟩ := hdx
    exact ⟨fun _ => hshow, fun _ => hthis⟩
  · show phase (told key (r.tell c (r.name s) .updated ready).log (r.session d) x) = some true ↔ _
    rw [hothers d hd x hdx]
    exact h.shows d hd x

theorem Told.overflow (h : Told key live r) (hc : c ∈ live) :
    Told key live (r.tell c name .cacheFull ready) := by
  have hsame : ∀ σ x, told key (r.tell c name .cacheFull ready).log σ x = told key r.log σ x :=
    fun σ x => told_cons_other (fun hh => hh.2.2 rfl)
  refine ⟨fun σ x => by rw [hsame]; exact h.phases σ x, fun d hd x => ?_, h.distinct, h.session_lt, h.session_inj,
    fun e he => ?_, fun e he => ?_⟩
  · rw [hsame]
    exact h.shows d hd x
  · rcases mem_cons.mp he with rfl | he
    · exact h.session_lt c hc
    · exact h.logged e he
  · rcases mem_cons.mp he with rfl | he
    · nofun
    · exact h.ready e he

theorem Told.adopt (h : Told key live r) (hl : r.Linked own) {free : List S} {name : N} (hf : r.free = s :: free)
    (hfresh : ∀ t ∈ r.members c, key (r.name t) ≠ key name) : Told key live (r.adopt s free c name) := by
  have hnodup := hl.freeNodup
  rw [hf, nodup_cons] at hnodup
  have hfree : ∀ t, t ∉ free → t ≠ s → t ∉ r.free := fun t ht hts => by simp [hf, hts, ht]
  have hne : ∀ t, t ∉ r.free → t ≠ s ∧ t ∉ free := fun t ht => by simpa [hf] using ht
  have hown : ∀ t, t ≠ s → update r.owner s (some c) t = r.owner t := fun t hts => update_of_ne hts ..
  have hshow : ∀ t, t ≠ s → update r.shown s false t = r.shown t := fun t hts => update_of_ne hts ..
  have hname : ∀ t, t ≠ s → update r.name s name t = r.name t := fun t hts => update_of_ne hts ..
  -- nobody else of this owner has the new name
  have hapart : ∀ t, t ≠ s → t ∉ free → r.owner t = some c → key (r.name t) ≠ key name := fun t hts ht ho =>
    hfresh t ((hl.members.mem_iff c t).mpr ⟨hfree t ht hts, ho⟩)
  refine ⟨h.phases, fun d hd x => ?_, fun t u ht hu ho hk => ?_, h.session_lt, h.session_inj, h.logged, h.ready⟩
  · refine (h.shows d hd x).trans ⟨fun ⟨t, ht, hot, hsht, hx⟩ => ?_, fun ⟨t, ht, hot, hsht, hx⟩ => ?_⟩
    · obtain ⟨hts, htf⟩ := hne t ht
      exact ⟨t, htf, (hown t hts).trans hot, (hshow t hts).trans hsht,
        (congrArg key (hname t hts)).trans hx⟩
    · have hts : t ≠ s := by
        rintro rfl
        have hsht : update r.shown t false t = true := hsht
        rw [update_self] at hsht
        cases hsht
      exact ⟨t, hfree t ht hts, (hown t hts).symm.trans hot, (hshow t hts).symm.trans hsht,
        (congrArg key (hname t hts)).symm.trans hx⟩
  · have ho : update r.owner s (some c) t = update r.owner s (some c) u := ho
    have hk : key (update r.name s name t) = key (update r.name s name u) := hk
    by_cases hts : t = s <;> by_cases hus : u = s
    · rw [hts, hus]
    · rw [hts, update_self, hown u hus] at ho
      rw [hts, update_self, hname u hus] at hk
      exact absurd hk.symm (hapart u hus hu ho.symm)
    · rw [hus, update_self, hown t hts] at ho
      rw [hus, update_self, hname t hts] at hk
      exact absurd hk (hapart t hts ht ho)
    · rw [hown t hts, hown u hus] at ho
      rw [hname t hts, hname u hus] at hk
      exact h.distinct t u (hfree t ht hts) (hfree u hu hus) ho hk

theorem Told.clear (h : Told key live r) {name : N} (hs : s ∈ r.free) : Told key live (r.clear s c name) := by
  have hne : ∀ t, t ∉ r.free → t ≠ s := by
    rintro t ht rfl
    exact ht hs
  have hown : ∀ t, t ∉ r.free → (r.clear s c name).owner t = r.owner t := fun t ht => update_of_ne (hne t ht) ..
  have hshow : ∀ t, t ∉ r.free → (r.clear s c name).shown t = r.shown t := fun t ht => update_of_ne (hne t ht) ..
  have hname : ∀ t, t ∉ r.free → (r.clear s c name).name t = r.name t := fun t ht => update_of_ne (hne t ht) ..
  refine ⟨h.phases, fun d hd x => (h.shows d hd x).trans ?_, fun t u ht hu ho hk => ?_, h.session_lt, h.session_inj,
    h.logged, h.ready⟩
  · exact exists_congr (fun t => and_congr_right (fun ht => by rw [hown t ht, hshow t ht, hname t ht]))
  · rw [hown t ht, hown u hu] at ho
    rw [hname t ht, hname u hu] at hk
    exact h.distinct t u ht hu ho hk

theorem Move.told (h : Move wf key mayMove live r r') (hl : r.Linked own) (ht : Told key live r) :
    Told key live r' := by
  cases h with
  | drop _ hsh => exact ht.drop hsh
  | vanish hs hc ho hsh => exact ht.vanish hs hc ho hsh
  | attach _ _ _ => exact ⟨ht.phases, ht.shows, ht.distinct, ht.session_lt, ht.session_inj, ht.logged, ht.ready⟩
  | recruit _ _ _ _ => exact ⟨ht.phases, ht.shows, ht.distinct, ht.session_lt, ht.session_inj, ht.logged, ht.ready⟩
  | adopt hf _ _ hfresh => exact ht.adopt hl hf hfresh
  | clear hs => exact ht.clear hs
  | discover hs hc ho hsh => exact ht.discover hs hc ho hsh
  | change hs hc ho hsh => exact ht.change hs hc ho hsh
  | overflow hc => exact ht.overflow hc

theorem Moves.told (h : Moves wf key mayMove live r r') (hl : r.Linked own) (hlive : live ⊆ own)
    (ht : Told key live r) : Told key live r' :=
  (h.keeps (I := fun r => r.Linked own ∧ Told key live r)
    (fun _ _ hm hr => ⟨hm.linked hr.1 hlive, hm.told hr.1 hr.2⟩) ⟨hl, ht⟩).2

theorem Told.begin (h : Told key live r) (hl : r.Linked own) {freeM : List M} {kind : N} (hf : r.freeM = c :: freeM)
    (hlive : live ⊆ own) : Told key (c :: live) (r.begin c freeM kind) := by
  have hc : c ∉ own := (hl.owners.off_iff c).mp (by rw [hf]; exact mem_cons_self ..)
  have hsession : ∀ d ∈ live, (r.begin c freeM kind).session d = r.session d := by
    intro d hd
    refine update_of_ne ?_ ..
    rintro rfl
    exact hc (hlive hd)
  have hnew : (r.begin c freeM kind).session c = r.sessions := update_self ..
  refine ⟨h.phases, fun d hd x => ?_, h.distinct, fun d hd => ?_, fun d hd e he hde => ?_,
    fun e he => (h.logged e he).trans (Nat.lt_succ_self _), h.ready⟩
  · rcases mem_cons.mp hd with rfl | hd
    · have hempty : told key r.log r.sessions x = [] := by
        unfold told
        rw [filter_eq_nil_iff.mpr, map_nil]
        intro e he
        have := h.logged e he
        simp [Nat.ne_of_lt this]
      rw [hnew]
      show phase (told key r.log r.sessions x) = some true ↔ _
      rw [hempty]
      refine ⟨nofun, fun ⟨t, ht, ho, _, _⟩ => ?_⟩
      exact absurd (hl.owner_mem ht ho) hc
    · rw [hsession d hd]
      exact h.shows d hd x
  · show (r.begin c freeM kind).session d < r.sessions + 1
    rcases mem_cons.mp hd with rfl | hd
    · rw [hnew]
      exact Nat.lt_succ_self _
    · rw [hsession d hd]
      exact (h.session_lt d hd).trans (Nat.lt_succ_self _)
  · rcases mem_cons.mp hd with hdc | hd <;> rcases mem_cons.mp he with hec | he
    · rw [hdc, hec]
    · rw [hdc, hnew, hsession e he] at hde
      exact absurd hde.symm (Nat.ne_of_lt (h.session_lt e he))
    · rw [hec, hnew, hsession d hd] at hde
      exact absurd hde (Nat.ne_of_lt (h.session_lt d hd))
    · rw [hsession d hd, hsession e he] at hde
      exact h.session_inj d hd e he hde

theorem Told.mono {live' : List M} (h : Told key live r) (hsub : live' ⊆ live) : Told key live' r :=
  ⟨h.phases, fun c hc => h.shows c (hsub hc), h.distinct, fun c hc => h.session_lt c (hsub hc),
    fun c hc d hd => h.session_inj c (hsub hc) d (hsub hd), h.logged, h.ready⟩

theorem Told.finish (h : Told key live r) : Told key live (r.finish c) :=
  ⟨h.phases, h.shows, h.distinct, h.session_lt, h.session_inj, h.logged, h.ready⟩

end Registry

end Mdns
