import Mdns.Query.Ask
import Mdns.Query.Invariant
import Mathlib.Tactic.Ring

/-!
# How long a record stays in the cache

A record is asked for again when a fifth, a tenth and a twentieth of its time are left, and then it
has to go. The A records keep to this schedule. The SRV records do not: their second question waits
for 80 % of the time once more.
-/
namespace Mdns
open Lib List Option

variable {n k : Nat}

/-- A record that the cache can have: the SRV record of an instance, or an A record. -/
inductive Cached (n : Nat) where
  | srv (s : Fin n)
  | arec (a : Fin n)

def Cached.Present (q : Querier n k) : Cached n → Prop
  | .srv s => s ∉ q.sinstsFree
  | .arec a => a ∈ q.arecsActive ∨ ∃ s, s ∉ q.sinstsFree ∧ (q.sinsts s).arec = some a

def Cached.question (q : Querier n k) : Cached n → Mem
  | .srv s => questionBytes (q.sinsts s).fqsn tAny
  | .arec a => questionBytes (q.arecs a).fqdn tA

/-- The record has just come with this TTL in milliseconds: what `update_srv` and `set_ip` leave. -/
def Cached.Received (ttl : Nat) (q : Querier n k) : Cached n → Prop
  | .srv s => (q.sinsts s).srvTtl0 = ttl ∧ (q.sinsts s).nextRefresh = percent ttl 80 ∧ (q.sinsts s).ttlPercent = 20
  | .arec a => (q.arecs a).state = .resolved ∧ (q.arecs a).ttl = ttl ∧ (q.arecs a).nextRefresh = percent ttl 80 ∧
      (q.arecs a).ttlPercent = 10

/-- A run that is watched: the querier, the time of its next event, the time that has passed, the
times at which the question was sent and those at which the record was found gone. -/
structure Watch (n k : Nat) where
  q : Querier n k
  next : Nat
  time : Nat := 0
  asked : Set Nat := ∅
  gone : Set Nat := ∅

/-- One call of `prepare_query`. -/
def Watch.after (w : Watch n k) (x : Cached n) (elapsed : Nat) (st : Sched n k) : Watch n k where
  q := st.q
  next := st.next
  time := w.time + elapsed
  asked := w.asked ∪ { t | t = w.time + elapsed ∧ st.ret = 1 ∧ st.q.tx.Carries (x.question w.q) }
  gone := w.gone ∪ { t | t = w.time + elapsed ∧ ¬ x.Present st.q }

/-- The runs from a querier in which the record has just come; `next` is the next event that the call before it has
returned. No call comes later than one millisecond after the next event. -/
inductive Watched (x : Cached n) (q : Querier n k) (next : Nat) : Watch n k → Prop where
  | start : Watched x q next { q, next }
  | call {w : Watch n k} {elapsed : Nat} {st : Sched n k} : Watched x q next w → elapsed ≤ w.next + 1 →
      prepareQuery elapsed w.q = some st → Watched x q next (w.after x elapsed st)

def leaves (ttl p : Nat) : Nat := ttl - ttl * p / 100

/-- The record is gone in time, and as long as it was there it has been asked for. A call may be a
millisecond late, and the delays of the calls add up. -/
structure Watch.Timely (ttl : Nat) (w : Watch n k) : Prop where
  gone : ttl ≤ w.time → ∃ t ∈ w.gone, t ≤ ttl
  asked : ∀ p ∈ [20, 10, 5], leaves ttl p + 3 ≤ w.time → (∀ t ∈ w.gone, leaves ttl p + 3 ≤ t) →
    ∃ t ∈ w.asked, leaves ttl p ≤ t ∧ t ≤ leaves ttl p + 3

section arec
variable {secs : Nat} {a : Fin n} {r r' : ARec n} {w : Watch n k} {live : List (Fin k)} {q : Querier n k}

inductive Phase where
  | resolved
  | once
  | twice
  | thrice

def Phase.left : Phase → Nat
  | .resolved => 20
  | .once => 10
  | .twice => 5
  | .thrice => 3

def Phase.late : Phase → Nat
  | .resolved => 0
  | .once => 1
  | .twice => 2
  | .thrice => 3

def Phase.percent : Phase → Nat
  | .resolved => 10
  | .once => 10
  | .twice => 5
  | .thrice => 2

def Phase.state : Phase → ARecState
  | .resolved => .resolved
  | _ => .querying

structure ARec.In (secs : Nat) (ph : Phase) (r : ARec n) : Prop where
  ttl : r.ttl = 1000 * secs
  state : r.state = ph.state
  percent : r.ttlPercent = ph.percent

theorem percent_secs (hle : secs ≤ 53000) {p : Nat} (hp : p ≤ 80) : percent (1000 * secs) p = 10 * secs * p := by
  have hwrap : 1000 * secs * p < 2 ^ 32 := by
    have hmul : 1000 * secs * p ≤ 1000 * 53000 * 80 := Nat.mul_le_mul (by omega) hp
    omega
  unfold Mdns.percent
  rw [Nat.mod_eq_of_lt hwrap]
  have hsplit : 1000 * secs * p = 10 * secs * p * 100 := by ring
  rw [hsplit, Nat.mul_div_cancel _ (by decide)]

theorem leaves_secs (secs p : Nat) : leaves (1000 * secs) p = 10 * secs * (100 - p) := by
  have hsplit : 1000 * secs * p = 10 * secs * p * 100 := by ring
  unfold leaves
  rw [hsplit, Nat.mul_div_cancel _ (by decide), Nat.mul_sub]
  omega

def Watch.AskedAt (w : Watch n k) (ttl p : Nat) : Prop := ∃ t ∈ w.asked, leaves ttl p ≤ t ∧ t ≤ leaves ttl p + 3

structure Watch.OnSchedule (w : Watch n k) (secs : Nat) (a : Fin n) (ph : Phase) : Prop where
  active : a ∈ w.q.arecsActive
  phase : (w.q.arecs a).In secs ph
  next : w.next ≤ (w.q.arecs a).nextRefresh
  early : leaves (1000 * secs) ph.left ≤ w.time + (w.q.arecs a).nextRefresh
  late : w.time + (w.q.arecs a).nextRefresh ≤ leaves (1000 * secs) ph.left + ph.late
  gone : w.gone = ∅
  asked : ∀ p ∈ [20, 10, 5], ph.left < p → w.AskedAt (1000 * secs) p

structure Watch.Over (w : Watch n k) (secs : Nat) (a : Fin n) : Prop where
  inactive : a ∉ w.q.arecsActive
  gone : ∃ t ∈ w.gone, t ≤ 1000 * secs
  asked : ∀ p ∈ [20, 10, 5], (∀ t ∈ w.gone, leaves (1000 * secs) p + 3 ≤ t) → w.AskedAt (1000 * secs) p

theorem Phase.within (ph : Phase) (hpos : 0 < secs) {t : Nat} (hlate : t ≤ leaves (1000 * secs) ph.left + ph.late) :
    t < 1000 * secs ∧ ∀ p ∈ [20, 10, 5], leaves (1000 * secs) p + 3 ≤ t → ph.left < p := by
  have h20 := leaves_secs secs 20
  have h10 := leaves_secs secs 10
  have h5 := leaves_secs secs 5
  have h3 := leaves_secs secs 3
  constructor
  · cases ph <;> simp only [Phase.left, Phase.late] at hlate <;> omega
  · intro p hp hle
    simp only [mem_cons, not_mem_nil, or_false] at hp
    rcases hp with rfl | rfl | rfl <;> cases ph <;> simp only [Phase.left, Phase.late] at hlate ⊢ <;> omega

theorem Watch.OnSchedule.timely {ph : Phase} (h : w.OnSchedule secs a ph) (hpos : 0 < secs) :
    w.Timely (1000 * secs) := by
  obtain ⟨hlt, hdue⟩ := ph.within hpos ((Nat.le_add_right ..).trans h.late)
  exact ⟨fun hle => absurd hlt (Nat.not_lt_of_le hle), fun p hp hle _ => h.asked p hp (hdue p hp hle)⟩

theorem Watch.Over.timely (h : w.Over secs a) : w.Timely (1000 * secs) :=
  ⟨fun _ => h.gone, fun p hp _ hgone => h.asked p hp hgone⟩

def Phase.next : Phase → Option Phase
  | .resolved => some .once
  | .once => some .twice
  | .twice => some .thrice
  | .thrice => none

inductive Passes (secs : Nat) (ph : Phase) (r : ARec n) (elapsed : Nat) : ARec n → Int → Prop where
  | waits {r' : ARec n} : elapsed < r.nextRefresh → r'.In secs ph → r'.nextRefresh = r.nextRefresh - elapsed →
      Passes secs ph r elapsed r' 0
  | asks {ph' : Phase} {r' : ARec n} : r.nextRefresh ≤ elapsed → ph.next = some ph' → r'.In secs ph' →
      leaves (1000 * secs) ph.left + r'.nextRefresh = leaves (1000 * secs) ph'.left → Passes secs ph r elapsed r' 1

theorem ArecTurn.passes {ph : Phase} {q₁ q₂ : Querier n k} {elapsed : Nat} {ret : Int} (hle : secs ≤ 53000)
    (h : ArecTurn q₁ a elapsed q₂ ret) (hin : (q₁.arecs a).In secs ph) :
    Passes secs ph (q₁.arecs a) elapsed (q₂.arecs a) ret ∨
      ph = .thrice ∧ (q₁.arecs a).nextRefresh ≤ elapsed ∧
        evictArec (q₁.setArec a ((q₁.arecs a).age elapsed)) a = some q₂ := by
  have h10 := percent_secs (p := 10) hle (by decide)
  have h5 := percent_secs (p := 5) hle (by decide)
  have h2 := percent_secs (p := 2) hle (by decide)
  have hstate := hin.state
  have hpercent := hin.percent
  have httl := hin.ttl
  have hask : ∀ r : ARec n, (askArec q₁ a r).arecs a = r := fun r => setArec_self _ a r
  cases h with
  | launches hinit =>
    rw [hinit] at hstate
    cases ph <;> cases hstate
  | waits _ hlt =>
    left
    rw [setArec_self]
    refine .waits hlt ⟨httl, hstate, hpercent⟩ ?_
    show subtract _ _ = _
    rw [subtract, if_pos hlt]
  | refreshes hresolved hdue =>
    left
    rw [hask]
    rw [hresolved] at hstate
    cases ph <;> cases hstate
    refine .asks hdue rfl ⟨httl, rfl, rfl⟩ ?_
    show leaves _ 20 + percent (q₁.arecs a).ttl 10 = leaves _ 10
    rw [httl, h10, leaves_secs, leaves_secs]
    omega
  | retries hquerying hdue hfive =>
    left
    rw [hask]
    cases ph with
    | resolved =>
      rw [hquerying] at hstate
      cases hstate
    | once =>
      have hhalf : (q₁.arecs a).ttlPercent / 2 = 5 := by rw [hpercent]; rfl
      refine .asks hdue rfl ⟨httl, hquerying, hhalf⟩ ?_
      show leaves _ 10 + percent (q₁.arecs a).ttl ((q₁.arecs a).ttlPercent / 2) = leaves _ 5
      rw [httl, hhalf, h5, leaves_secs, leaves_secs]
      omega
    | twice =>
      have hhalf : (q₁.arecs a).ttlPercent / 2 = 2 := by rw [hpercent]; rfl
      refine .asks hdue rfl ⟨httl, hquerying, hhalf⟩ ?_
      show leaves _ 5 + percent (q₁.arecs a).ttl ((q₁.arecs a).ttlPercent / 2) = leaves _ 3
      rw [httl, hhalf, h2, leaves_secs, leaves_secs]
      omega
    | thrice =>
      rw [hpercent] at hfive
      exact absurd hfive (by decide)
  | evicts hquerying hdue hlow hevict =>
    right
    refine ⟨?_, hdue, hevict⟩
    rw [hpercent] at hlow
    cases ph with
    | thrice => rfl
    | _ => exact absurd hlow (by decide)

variable {elapsed : Nat} {st : Sched n k} {ph : Phase}

theorem Watch.AskedAt.after {ttl p : Nat} (h : w.AskedAt ttl p) (x : Cached n) :
    (w.after x elapsed st).AskedAt ttl p := by
  obtain ⟨t, ht, hbounds⟩ := h
  exact ⟨t, .inl ht, hbounds⟩

theorem not_present_arec (hl : q.reg.Linked live) (h : a ∉ q.arecsActive) : ¬ (Cached.arec a).Present q := by
  rintro (hactive | ⟨s, hs, harec⟩)
  · exact h hactive
  · exact h (hl.hosted s a hs harec)

theorem Watch.gone_after_active (hgone : w.gone = ∅) (h : a ∈ st.q.arecsActive) :
    (w.after (.arec a) elapsed st).gone = ∅ := by
  ext t
  constructor
  · rintro (ht | ⟨-, hnot⟩)
    · rw [hgone] at ht
      exact ht
    · exact absurd (.inl h) hnot
  · exact False.elim

theorem Watch.gone_after_inactive (hgone : w.gone = ∅) (hl : st.q.reg.Linked live) (h : a ∉ st.q.arecsActive) :
    (w.after (.arec a) elapsed st).gone = {w.time + elapsed} := by
  ext t
  constructor
  · rintro (ht | ⟨rfl, -⟩)
    · rw [hgone] at ht
      exact ht.elim
    · rfl
  · rintro rfl
    exact .inr ⟨rfl, not_present_arec hl h⟩

theorem over_of_inactive (hgone : w.gone = ∅) (hl : st.q.reg.Linked live) (h : a ∉ st.q.arecsActive)
    (htime : w.time + elapsed ≤ 1000 * secs)
    (hasked : ∀ p ∈ [20, 10, 5], leaves (1000 * secs) p + 3 ≤ w.time + elapsed →
      (w.after (.arec a) elapsed st).AskedAt (1000 * secs) p) : (w.after (.arec a) elapsed st).Over secs a := by
  have hset : (w.after (.arec a) elapsed st).gone = {w.time + elapsed} := Watch.gone_after_inactive hgone hl h
  refine ⟨h, ?_, fun p hp hall => hasked p hp (hall _ ?_)⟩
  · rw [hset]
    exact ⟨_, rfl, htime⟩
  · rw [hset]
    rfl

theorem Watch.Over.call (h : w.Over secs a) (hcall : prepareQuery elapsed w.q = some st) :
    (w.after (.arec a) elapsed st).Over secs a := by
  obtain ⟨b, hp⟩ := prepareQuery_proceeds hcall
  obtain ⟨t, ht, hle⟩ := h.gone
  refine ⟨fun hactive => h.inactive (hp.active.subset hactive), ⟨t, .inl ht, hle⟩, fun p hmem hall => ?_⟩
  exact (h.asked p hmem (fun t ht => hall t (.inl ht))).after _

theorem Watch.settle (hpos : 0 < secs) (hgone : w.gone = ∅) (hl : st.q.reg.Linked live)
    (hphase : (st.q.arecs a).In secs ph)
    (hnext : st.next ≤ (st.q.arecs a).nextRefresh)
    (hearly : leaves (1000 * secs) ph.left ≤ w.time + elapsed + (st.q.arecs a).nextRefresh)
    (hlate : w.time + elapsed + (st.q.arecs a).nextRefresh ≤ leaves (1000 * secs) ph.left + ph.late)
    (hasked : ∀ p ∈ [20, 10, 5], ph.left < p → (w.after (.arec a) elapsed st).AskedAt (1000 * secs) p) :
    (∃ ph', (w.after (.arec a) elapsed st).OnSchedule secs a ph') ∨ (w.after (.arec a) elapsed st).Over secs a := by
  by_cases hactive : a ∈ st.q.arecsActive
  · left
    exact ⟨ph, hactive, hphase, hnext, hearly, hlate, Watch.gone_after_active hgone hactive, hasked⟩
  · right
    obtain ⟨hlt, hdue⟩ := ph.within hpos ((Nat.le_add_right ..).trans hlate)
    exact over_of_inactive hgone hl hactive (Nat.le_of_lt hlt) (fun p hp hle => hasked p hp (hdue p hp hle))

/-- The next phase may be a millisecond later, and what it has been asked for is the question of
the phase before it and those before. -/
theorem Phase.next_spec {ph' : Phase} (h : ph.next = some ph') :
    ph'.late = ph.late + 1 ∧ ph.late ≤ 2 ∧ ∀ p ∈ [20, 10, 5], ph'.left < p → p = ph.left ∨ ph.left < p := by
  cases ph <;> cases h <;> decide

theorem Watch.OnSchedule.call (h : w.OnSchedule secs a ph) (hpos : 0 < secs) (hle : secs ≤ 53000)
    (hl : w.q.reg.Linked live) (href : (w.q.arecs a).sinsts ≠ []) (hroom : headerSize + w.q.questionsRoom ≤ dataMax)
    (hpace : elapsed ≤ w.next + 1) (hcall : prepareQuery elapsed w.q = some st) :
    (∃ ph', (w.after (.arec a) elapsed st).OnSchedule secs a ph') ∨ (w.after (.arec a) elapsed st).Over secs a := by
  obtain ⟨q₁, q₂, ret, hturn⟩ := prepareQuery_turn hl hcall h.active
  have hl' : st.q.reg.Linked live := (prepareQuery_stays hl hcall).linked hl (List.Subset.refl _)
  have hin : (q₁.arecs a).In secs ph := by
    rw [hturn.before]
    exact ⟨h.phase.ttl, h.phase.state, h.phase.percent⟩
  have hdue : (q₁.arecs a).nextRefresh = (w.q.arecs a).nextRefresh := by rw [hturn.before]
  have hafter : (st.q.arecs a).nextRefresh = (q₂.arecs a).nextRefresh := by rw [hturn.after]
  have hin' : ∀ ph', (q₂.arecs a).In secs ph' → (st.q.arecs a).In secs ph' := by
    intro ph' hin
    rw [hturn.after]
    exact ⟨hin.ttl, hin.state, hin.percent⟩
  have hnext' : st.next ≤ (st.q.arecs a).nextRefresh := by
    rw [hafter]
    exact hturn.next
  have hnext := h.next
  have hearly := h.early
  have hlate := h.late
  rcases hturn.turn.passes hle hin with hpass | ⟨rfl, hover, hevict⟩
  · cases hpass with
    | waits hlt hphase hleft =>
      apply Watch.settle hpos h.gone hl' (hin' ph hphase) hnext'
      · omega
      · omega
      · intro p hp hlow
        exact (h.asked p hp hlow).after _
    | @asks ph' _ hover hph hphase hlater =>
      obtain ⟨hsame, hsmall, hbefore⟩ := Phase.next_spec hph
      obtain ⟨hret, hcarries⟩ := hturn.sent hroom rfl
      -- the call itself is at most a millisecond late
      have hnow : (w.after (.arec a) elapsed st).AskedAt (1000 * secs) ph.left :=
        ⟨w.time + elapsed, .inr ⟨rfl, hret, hcarries⟩, by omega, by omega⟩
      apply Watch.settle hpos h.gone hl' (hin' ph' hphase) hnext'
      · omega
      · omega
      · intro p hp hlow
        rcases hbefore p hp hlow with rfl | hlow
        · exact hnow
        · exact (h.asked p hp hlow).after _
  · right
    have hreg : (q₁.setArec a ((q₁.arecs a).age elapsed)).reg = q₁.reg := reg_setArec rfl rfl
    have hl₁ : (q₁.setArec a ((q₁.arecs a).age elapsed)).reg.Linked live := by
      rw [hreg]
      exact hturn.stays.linked hl (List.Subset.refl _)
    have hrefers : a ∈ q₁.arecsActive → (q₁.arecs a).sinsts ≠ [] := hturn.stays.referred hl (fun _ => href)
    have hretired : a ∉ q₂.arecsActive := by
      refine evictArec_retires hl₁ ?_ hevict
      rw [setArec_self]
      exact hrefers
    have hall : ∀ p ∈ [20, 10, 5], Phase.thrice.left < p := by decide
    have h3 := leaves_secs secs 3
    simp only [Phase.left, Phase.late] at hlate
    refine over_of_inactive h.gone hl' (fun hmem => hretired (hturn.active.subset hmem)) (by omega) (fun p hp _ => ?_)
    exact (h.asked p hp (hall p hp)).after _

theorem Watched.settles {next : Nat} (hpos : 0 < secs) (hle : secs ≤ 53000) (hl : q.reg.Linked live)
    (href : (q.arecs a).sinsts ≠ []) (hactive : a ∈ q.arecsActive) (hroom : headerSize + q.questionsRoom ≤ dataMax)
    (hreceived : (Cached.arec a).Received (1000 * secs) q) (hnext : next ≤ (q.arecs a).nextRefresh)
    (h : Watched (.arec a) q next w) :
    w.q.reg.Linked live ∧ headerSize + w.q.questionsRoom ≤ dataMax ∧ (a ∈ w.q.arecsActive → (w.q.arecs a).sinsts ≠ []) ∧
      ((∃ ph, w.OnSchedule secs a ph) ∨ w.Over secs a) := by
  induction h with
  | start =>
    obtain ⟨hstate, httl, hdue, hpercent⟩ := hreceived
    have h80 := percent_secs (p := 80) hle (by decide)
    have h20 := leaves_secs secs 20
    refine ⟨hl, hroom, fun _ => href, .inl ⟨.resolved, hactive, ⟨httl, hstate, hpercent⟩, hnext, ?_, ?_, rfl, ?_⟩⟩
    · show leaves _ 20 ≤ 0 + (q.arecs a).nextRefresh
      omega
    · show 0 + (q.arecs a).nextRefresh ≤ leaves _ 20 + 0
      omega
    · intro p hp hlow
      simp only [mem_cons, not_mem_nil, or_false] at hp
      simp only [Phase.left] at hlow
      omega
  | @call w elapsed st _ hpace hcall ih =>
    obtain ⟨hl, hroom, href, hcase⟩ := ih
    have hstays := prepareQuery_stays hl hcall
    obtain ⟨b, hproceeds⟩ := prepareQuery_proceeds hcall
    have hless : st.q.questionsRoom ≤ w.q.questionsRoom := hproceeds.questionsRoom_le
    refine ⟨hstays.linked hl (List.Subset.refl _), (Nat.add_le_add_left hless _).trans hroom,
      hstays.referred hl href, ?_⟩
    rcases hcase with ⟨ph, hon⟩ | hover
    · exact hon.call hpos hle hl (href hon.active) hroom hpace hcall
    · exact .inr (hover.call hcall)

/-- No A record outlives its TTL: if an instance refers to it, every SRV record has found a place
for its host, the questions of the whole cache fit into one query and the next event from before the record is not
later than 80 % of its TTL, then it is asked for in time and gone in time, in every state of every run, and every
further call returns. -/
theorem watched_arec_timely {s : Fin n} {next : Nat} (hpos : 0 < secs) (hle : secs ≤ 53000) (hrun : Run fitting q)
    (hs : s ∉ q.sinstsFree) (hhost : (q.sinsts s).arec = some a) (hroom : headerSize + q.questionsRoom ≤ dataMax)
    (hreceived : (Cached.arec a).Received (1000 * secs) q) (hnext : next ≤ 1000 * secs * 80 / 100)
    (h : Watched (.arec a) q next w) :
    w.Timely (1000 * secs) ∧ ∀ elapsed, ∃ st, prepareQuery elapsed w.q = some st := by
  have hl := (hrun.sound fitting_hosts).linked
  have hmem : s ∈ (q.arecs a).sinsts := (hl.referrers.mem_iff a s).mpr ⟨hs, hhost⟩
  have hfirst : next ≤ (q.arecs a).nextRefresh := by
    have h80 := percent_secs (p := 80) hle (by decide)
    rw [hreceived.2.2.1, h80]
    omega
  obtain ⟨hl', -, -, hcase⟩ :=
    h.settles hpos hle hl (ne_nil_of_mem hmem) (hl.hosted s a hs hhost) hroom hreceived hfirst
  refine ⟨?_, fun elapsed => prepareQuery_returns elapsed hl'⟩
  rcases hcase with ⟨ph, hon⟩ | hover
  · exact hon.timely hpos
  · exact hover.timely

theorem received_of_updateArecRx {q' : Querier n k} {m : Message} {r : Resource} (h : updateArecRx q a m r = some q')
    (hne : r.ttl ≠ 0) : (Cached.arec a).Received (convertTtl r.ttl) q' := by
  have halert : ∀ {q q' : Querier n k} {s : Fin n}, alertSinst (.got (.arec a)) q s = some q' →
      (q'.arecs a).state = (q.arecs a).state := by
    intro q q' s h
    obtain ⟨q₂, changes, hc, hr⟩ := alertSinst_eq_some h
    obtain ⟨-, harecs, -, -⟩ := hr.got_frame
    rw [harecs, (hosted_of_setArec hc).arecs a]
  obtain ⟨-, q₁, h₁, rfl⟩ := (updateArecRx_eq_some h).resolve_left (fun h => hne h.1)
  have hstate : (q₁.arecs a).state = .resolved := by
    rw [alertIp_eq] at h₁
    split at h₁
    · cases h₁
      rw [setArec_self]
    · refine runAll_keeps (I := fun q : Querier n k => (q.arecs a).state = .resolved) ?_ h₁ ?_
      · intro q s q' hs hres
        rw [halert hs, hres]
      · rw [setArec_self, setArec_self]
  show _ ∧ _ ∧ _ ∧ _
  rw [setArec_self]
  exact ⟨hstate, rfl, rfl, rfl⟩

end arec

section srv

def Event.atOnce : Event → Event
  | .response data mlen _ => .response data mlen 0
  | ev => ev

/-- The querier that monitors a service type and has made its first query. -/
def queried : Option (Sched 16 4) :=
  (runAll (guardedStep fitting 60) [.monitor httpType] (queryLaunch 16 4)).bind (prepareQuery 0)

theorem queried_run {st : Sched 16 4} {q : Querier 16 4} {ev : Event} (hst : queried = some st)
    (hq : guardedStep fitting 60 st.q ev = some q) : Run fitting q := by
  obtain ⟨q₁, hq₁, hst⟩ := bind_eq_some_iff.mp hst
  have hprep : guardedStep fitting 60 q₁ (.prepare 0) = some st.q := by
    show (prepareQuery 0 q₁).map Sched.q = some st.q
    rw [hst]
    rfl
  exact .step (.step (run_of_runAll hq₁) hprep) hq

def briefly : Event := (receive [httpPtr 120, httpSrv 65, wireRecord [1, 65, 0] tA 10 [10, 0, 0, 1]]).atOnce

def pacedCall (test : Querier n k → Bool) (st : Sched n k) (elapsed : Nat) : Option (Sched n k) :=
  if elapsed ≤ st.next + 1 then (prepareQuery elapsed st.q).filter (fun st => test st.q) else none

theorem watched_of_pacedCalls {x : Cached n} {q : Querier n k} {next : Nat} {w : Watch n k}
    {st st' : Sched n k} {es : List Nat}
    {test : Querier n k → Bool} (h : runAll (pacedCall test) es st = some st') (hw : Watched x q next w)
    (hq : w.q = st.q)
    (hnext : w.next = st.next) : ∃ w', Watched x q next w' ∧ w'.time = w.time + es.sum ∧
      ((∀ q, test q = true → x.Present q) → w.gone = ∅ → w'.gone = ∅) := by
  induction es generalizing st w with
  | nil => exact ⟨w, hw, rfl, fun _ hgone => hgone⟩
  | cons e es ih =>
    obtain ⟨st₁, he, h⟩ := runAll_cons_eq_some.mp h
    unfold pacedCall at he
    split at he
    · next hpace =>
      obtain ⟨hcall, hstays⟩ := filter_eq_some_iff.mp he
      rw [← hq] at hcall
      rw [← hnext] at hpace
      obtain ⟨w', hw', htime, hend⟩ := ih h (.call hw hpace hcall) rfl rfl
      refine ⟨w', hw', ?_, fun htest hgone => hend htest ?_⟩
      · rw [htime, sum_cons]
        exact Nat.add_assoc ..
      · ext t
        constructor
        · rintro (ht | ⟨-, hnot⟩)
          · rw [hgone] at ht
            exact ht
          · exact absurd (htest _ hstays) hnot
        · exact False.elim
    · cases he

set_option maxRecDepth 100000 in
/-- After 122 seconds an instance whose SRV record lives for 120 is still there: it was asked for once, after 96
seconds, and the next question waits for 96 seconds more. -/
theorem watched_srv_late : ∃ (st : Sched 16 4) (q : Querier 16 4) (w : Watch 16 4), queried = some st ∧
    guardedStep fitting 60 st.q (announce 65 1).atOnce = some q ∧ Run fitting q ∧
      headerSize + q.questionsRoom ≤ dataMax ∧
    (Cached.srv 15).Received 120000 q ∧ Watched (.srv 15) q st.next w ∧ 120000 ≤ w.time ∧ ¬ w.Timely 120000 := by
  have h : (queried.bind (fun st => (guardedStep fitting 60 st.q (announce 65 1).atOnce).map (fun q =>
      decide (headerSize + q.questionsRoom ≤ dataMax ∧
      ((q.sinsts 15).srvTtl0 = 120000 ∧ (q.sinsts 15).nextRefresh = percent 120000 80 ∧ (q.sinsts 15).ttlPercent = 20) ∧
      (runAll (pacedCall (fun q => !q.sinstsFree.contains 15)) [2000, 4000, 8000, 16000, 32000, 34000, 26000]
        ⟨q, 0, st.next⟩).isSome = true)))) = some true := by
    decide +kernel
  obtain ⟨st, hst, h⟩ := bind_eq_some_iff.mp h
  obtain ⟨q, hq, hall⟩ := map_eq_some_iff.mp h
  obtain ⟨hroom, hreceived, hsome⟩ := of_decide_eq_true hall
  obtain ⟨st', hst'⟩ := isSome_iff_exists.mp hsome
  obtain ⟨w, hw, htime, hgone⟩ := watched_of_pacedCalls hst' (x := .srv 15) .start rfl rfl
  have hlate : 120000 ≤ w.time := by
    rw [htime]
    show 120000 ≤ 0 + [2000, 4000, 8000, 16000, 32000, 34000, 26000].sum
    decide
  refine ⟨st, q, w, hst, hq, queried_run hst hq, hroom, hreceived, hw, hlate, fun htimely => ?_⟩
  obtain ⟨t, ht, -⟩ := htimely.gone hlate
  rw [hgone (fun q htest => by simpa [Cached.Present] using htest) rfl] at ht
  exact ht

set_option maxRecDepth 100000 in
/-- An A record that lives for 10 seconds, after 14. -/
theorem watched_arec_announced : ∃ (st : Sched 16 4) (q : Querier 16 4) (w : Watch 16 4), queried = some st ∧
    guardedStep fitting 60 st.q briefly = some q ∧ (Cached.arec 15).Received 10000 q ∧ Watched (.arec 15) q st.next w ∧
    w.time = 14000 ∧ w.Timely 10000 := by
  have h : (queried.bind (fun st => (guardedStep fitting 60 st.q briefly).map (fun q =>
      decide (headerSize + q.questionsRoom ≤ dataMax ∧
      ((q.arecs 15).state = .resolved ∧ (q.arecs 15).ttl = 10000 ∧ (q.arecs 15).nextRefresh = percent 10000 80 ∧
        (q.arecs 15).ttlPercent = 10) ∧ (15 ∉ q.sinstsFree ∧ (q.sinsts 15).arec = some 15) ∧ st.next ≤ 8000 ∧
      (runAll (pacedCall (fun _ => true)) [2000, 4000, 2000, 1000, 500, 200, 4300] ⟨q, 0, st.next⟩).isSome = true)))) =
      some true := by
    decide +kernel
  obtain ⟨st, hst, h⟩ := bind_eq_some_iff.mp h
  obtain ⟨q, hq, hall⟩ := map_eq_some_iff.mp h
  obtain ⟨hroom, hreceived, ⟨hused, hhost⟩, hnext, hsome⟩ := of_decide_eq_true hall
  obtain ⟨st', hst'⟩ := isSome_iff_exists.mp hsome
  obtain ⟨w, hw, htime, -⟩ := watched_of_pacedCalls hst' (x := .arec 15) .start rfl rfl
  have htimely := watched_arec_timely (show 0 < 10 by decide) (by decide)
    (queried_run hst hq) hused hhost hroom hreceived hnext hw
  exact ⟨st, q, w, hst, hq, hreceived, hw, htime, htimely.1⟩

end srv

end Mdns
