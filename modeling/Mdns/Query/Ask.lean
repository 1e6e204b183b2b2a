import Mdns.Query.Run
import Mdns.Wire
import Mathlib.Algebra.Order.BigOperators.Group.List
import Mathlib.Algebra.Order.Ring.Nat

/-!
# What a query asks

How the passes of `prepare_query` fill the message. It has room for all questions if the questions
of everything in the cache fit.
-/
namespace Mdns
open Lib List Option
open Function (update update_of_ne update_self)

variable {n k : Nat}

section message

def questionBytes (name : Mem) (type : Nat) : Mem := nameBytes name ++ setUint16 type ++ setUint16 cIn

def questionRoom (name : Mem) : Nat := (nameBytes name).length + 4

theorem length_questionBytes (name : Mem) (type : Nat) : (questionBytes name type).length = questionRoom name := by
  simp [questionBytes, questionRoom, setUint16]

theorem appends_question (name : Mem) (type : Nat) :
    Appends (fun m => mdnsAddQuestion m name type cIn) (1, 0, 0) (questionBytes name type) := by
  have hput := (appends_putChecked (questionBytes name type ++ [])).count
    (fun {m _ _} hm => hm.countQuestion (m.numQuestions + 1))
  rw [append_nil] at hput
  intro m h body hm
  have hm := hput m h body hm
  unfold mdnsAddQuestion mdnsAddTuple
  rw [if_pos rfl, append_nil]
  exact hm

def Message.Carries (m : Message) (bs : Mem) : Prop := ∃ h front back, m.Holds h (front ++ bs ++ back)

/-- The second message holds what the first one holds, and at most so many bytes more. -/
def Message.Grows (b : Nat) (m m' : Message) : Prop :=
  ∀ h body, m.Holds h body → ∃ h' more, m'.Holds h' (body ++ more) ∧ more.length ≤ b

variable {b c : Nat} {m m₁ m' : Message} {bs : Mem}

theorem Message.Grows.refl (m : Message) : m.Grows 0 m := by
  intro h body hm
  refine ⟨h, [], ?_, Nat.le_refl 0⟩
  rw [append_nil]
  exact hm

theorem Message.Grows.trans (h : m.Grows b m₁) (h' : m₁.Grows c m') : m.Grows (b + c) m' := by
  intro hd body hm
  obtain ⟨hd₁, more, hm₁, hb⟩ := h hd body hm
  obtain ⟨hd₂, more', hm', hc⟩ := h' hd₁ (body ++ more) hm₁
  refine ⟨hd₂, more ++ more', ?_, ?_⟩
  · rw [← append_assoc]
    exact hm'
  · rw [length_append]
    omega

theorem Message.Grows.mono (h : m.Grows b m') (hle : b ≤ c) : m.Grows c m' := by
  intro hd body hm
  obtain ⟨hd', more, hm', hb⟩ := h hd body hm
  exact ⟨hd', more, hm', hb.trans hle⟩

theorem Message.Grows.carries (h : m.Grows b m') (hm : m.Carries bs) : m'.Carries bs := by
  obtain ⟨hd, front, back, hm⟩ := hm
  obtain ⟨hd', more, hm', -⟩ := h hd _ hm
  exact ⟨hd', front, back ++ more, by rw [← append_assoc]; exact hm'⟩

theorem Appends.grows {add : Add} {count : Nat × Nat × Nat} (ha : Appends add count bs) (m : Message) :
    m.Grows bs.length ((add m).getD m) := by
  intro h body hm
  obtain ⟨hroom, hfull⟩ := ha m h body hm
  by_cases hfits : m.cur + bs.length ≤ dataMax
  · obtain ⟨m', heq, hm'⟩ := hroom hfits
    refine ⟨h.plus count, bs, ?_, Nat.le_refl _⟩
    rw [heq]
    exact hm'
  · refine ⟨h, [], ?_, Nat.zero_le _⟩
    rw [hfull (Nat.lt_of_not_le hfits), append_nil]
    exact hm

theorem grows_question (m : Message) (name : Mem) (type : Nat) :
    m.Grows (questionRoom name) ((mdnsAddQuestion m name type cIn).getD m) := by
  rw [← length_questionBytes name type]
  exact (appends_question name type).grows m

theorem carries_question {h : Header} {body name : Mem} (hm : m.Holds h body)
    (hroom : headerSize + body.length + questionRoom name ≤ dataMax) (type : Nat) :
    ∃ m', mdnsAddQuestion m name type cIn = some m' ∧ m'.Carries (questionBytes name type) := by
  have hfits : m.cur + (questionBytes name type).length ≤ dataMax := by
    rw [hm.cur, length_questionBytes]
    exact hroom
  obtain ⟨m', heq, hm'⟩ := (appends_question name type m h body hm).1 hfits
  exact ⟨m', heq, _, body, [], by rw [append_nil]; exact hm'⟩

theorem grows_addKnownAnswers (offset : Nat) (is : List (ServiceInstance n k)) (m : Message) :
    ∃ b, m.Grows b (addKnownAnswers offset is m) := by
  induction is generalizing m with
  | nil => exact ⟨0, .refl m⟩
  | cons i is ih =>
    unfold addKnownAnswers
    split
    · exact ih m
    · split
      · exact ⟨0, .refl m⟩
      · have hanswer := ((appends_putChecked (setUint16 (0xC000 ||| offset) ++ setUint16 tPtr ++ setUint16 cIn ++
          setUint32 (i.ptrTtl / 1000))).count (fun hm => hm.countAnswer)).grows m
        have hname := (appends_putChecked (setUint16 ((i.servname.takeWhile (· ≠ 0)).length + 3) ++
          dnamePutLabel (i.servname.takeWhile (· ≠ 0)) ++ setUint16 (0xC000 ||| offset))).grows
            ((mdnsAddAnswerO m offset tPtr cIn (i.ptrTtl / 1000)).getD m)
        obtain ⟨b, hrest⟩ := ih ((mdnsAddNameLo ((mdnsAddAnswerO m offset tPtr cIn (i.ptrTtl / 1000)).getD m)
          (i.servname.takeWhile (· ≠ 0)) offset).getD ((mdnsAddAnswerO m offset tPtr cIn (i.ptrTtl / 1000)).getD m))
        exact ⟨_, (hanswer.trans hname).trans hrest⟩

end message

section cache
variable {about about' : List (Fin n)} {b b' : Nat} {q q₁ q' : Querier n k} {s a : Fin n} {elapsed : Nat}
  {ret changes : Int}

/-- A call that may ask questions: it writes at most so many bytes, brings nothing into the cache
and renames nothing, and changes only the lists of the A records that it is not about. -/
structure Proceeds (about : List (Fin n)) (b : Nat) (q q' : Querier n k) : Prop where
  tx : q.tx.Grows b q'.tx
  active : q'.arecsActive.Sublist q.arecsActive
  members : ∀ c, (q'.smons c).sinsts.Sublist (q.smons c).sinsts
  fqsn : ∀ s, (q'.sinsts s).fqsn = (q.sinsts s).fqsn
  fqdn : ∀ a, (q'.arecs a).fqdn = (q.arecs a).fqdn
  fqst : ∀ c, (q'.smons c).fqst = (q.smons c).fqst
  monitors : q'.smonsActive = q.smonsActive
  others : ∀ a, a ∉ about → q'.arecs a = { q.arecs a with sinsts := (q'.arecs a).sinsts }

theorem Proceeds.refl (q : Querier n k) : Proceeds [] 0 q q :=
  ⟨.refl _, .refl _, fun _ => .refl _, fun _ => rfl, fun _ => rfl, fun _ => rfl, rfl, fun _ _ => rfl⟩

theorem Proceeds.trans (h : Proceeds about b q q₁) (h' : Proceeds about' b' q₁ q') :
    Proceeds (about ++ about') (b + b') q q' where
  tx := h.tx.trans h'.tx
  active := h'.active.trans h.active
  members c := (h'.members c).trans (h.members c)
  fqsn s := (h'.fqsn s).trans (h.fqsn s)
  fqdn a := (h'.fqdn a).trans (h.fqdn a)
  fqst c := (h'.fqst c).trans (h.fqst c)
  monitors := h'.monitors.trans h.monitors
  others a ha := by
    obtain ⟨hout, hout'⟩ := not_or.mp (fun hor => ha (mem_append.mpr hor))
    rw [h'.others a hout', h.others a hout]

theorem Proceeds.mono (h : Proceeds about b q q') (hle : b ≤ b') : Proceeds about b' q q' :=
  { h with tx := h.tx.mono hle }

theorem proceeds_setSinst {i : ServiceInstance n k} (h : i.fqsn = (q.sinsts s).fqsn) :
    Proceeds [] 0 q (q.setSinst s i) where
  tx := .refl _
  active := .refl _
  members _ := .refl _
  fqsn t := by
    by_cases hts : t = s
    · rw [hts, setSinst_self]
      exact h
    · rw [setSinst_others q s i hts]
  fqdn _ := rfl
  fqst _ := rfl
  monitors := rfl
  others _ _ := rfl

theorem proceeds_setArec {r : ARec n} (h : r.fqdn = (q.arecs a).fqdn) : Proceeds [a] 0 q (q.setArec a r) where
  tx := .refl _
  active := .refl _
  members _ := .refl _
  fqsn _ := rfl
  fqdn d := by
    by_cases hda : d = a
    · rw [hda, setArec_self]
      exact h
    · show (update q.arecs a r d).fqdn = _
      rw [update_of_ne hda]
  fqst _ := rfl
  monitors := rfl
  others d hd := by
    have hda : d ≠ a := fun he => hd (mem_singleton.mpr he)
    show update q.arecs a r d = { q.arecs d with sinsts := (update q.arecs a r d).sinsts }
    rw [update_of_ne hda]

theorem proceeds_setSmon {c : Fin k} {mon : ServiceMonitor n} (h : mon.fqst = (q.smons c).fqst)
    (hs : mon.sinsts = (q.smons c).sinsts) : Proceeds [] 0 q (q.setSmon c mon) where
  tx := .refl _
  active := .refl _
  members d := by
    show (update q.smons c mon d).sinsts.Sublist _
    by_cases hdc : d = c
    · rw [hdc, update_self, hs]
    · rw [update_of_ne hdc]
  fqsn _ := rfl
  fqdn _ := rfl
  fqst d := by
    show (update q.smons c mon d).fqst = _
    by_cases hdc : d = c
    · rw [hdc, update_self, h]
    · rw [update_of_ne hdc]
  monitors := rfl
  others _ _ := rfl

theorem proceeds_tx {tx : Message} (h : q.tx.Grows b tx) : Proceeds [] b q { q with tx } :=
  ⟨h, .refl _, fun _ => .refl _, fun _ => rfl, fun _ => rfl, fun _ => rfl, rfl, fun _ _ => rfl⟩

theorem proceeds_callbackOn {status : Status} (h : callbackOn q s status = some q') : Proceeds [] 0 q q' := by
  obtain ⟨c, -, rfl⟩ := callbackOn_eq_some.mp h
  exact ⟨.refl _, .refl _, fun _ => .refl _, fun _ => rfl, fun _ => rfl, fun _ => rfl, rfl, fun _ _ => rfl⟩

theorem Cleaned.proceeds (h : Cleaned q s q') : Proceeds [] 0 q q' where
  tx := by
    rw [h.tx]
    exact .refl _
  active := by
    have hactive : q'.arecsActive = (q.reg.release s).active := congrArg Registry.active h.reg
    rw [hactive]
    show ((q.reg.host s).elim q.reg.active _).Sublist _
    cases q.reg.host s with
    | none => exact .refl _
    | some a =>
      rw [elim_some]
      split
      · exact erase_sublist
      · exact .refl _
  members c := by
    have hmembers : (q'.smons c).sinsts = unlink q.reg.owner q.reg.members s c :=
      congrFun (congrArg Registry.members h.reg) c
    rw [hmembers, unlink_apply]
    split
    · exact erase_sublist
    · exact .refl _
  fqsn t := congrFun (congrArg Registry.name h.reg) t
  fqdn a := congrFun (congrArg Registry.hostName h.reg) a
  fqst c := congrFun (congrArg Registry.kind h.reg) c
  monitors := h.smonsActive
  others a _ := h.arecs a

theorem Ages.proceeds (h : Ages q s elapsed q' ret) : Proceeds [] (questionRoom (q.sinsts s).fqsn) q q' := by
  have hage : Proceeds [] 0 q (q.setSinst s ((q.sinsts s).age elapsed)) := proceeds_setSinst rfl
  cases h with
  | waits _ => exact hage.mono (Nat.zero_le _)
  | @asks tx _ _ hask =>
    have hgrows := grows_question q.tx (q.sinsts s).fqsn tAny
    rw [hask] at hgrows
    exact (proceeds_tx hgrows).trans (proceeds_setSinst (i := ((q.sinsts s).age elapsed).reschedule) rfl)
  | crowded _ _ _ =>
    exact (proceeds_setSinst (i := ((q.sinsts s).age elapsed).reschedule) rfl).mono (Nat.zero_le _)
  | expires _ _ hclean =>
    have hgone : Proceeds [] 0 q q' := hage.trans (cleaned_of_cleanupSinst hclean).proceeds
    exact hgone.mono (Nat.zero_le _)

theorem proceeds_setState (q : Querier n k) (s : Fin n) (state : SinstState) : Proceeds [] 0 q (q.setState s state) :=
  proceeds_setSinst rfl

theorem Reacts.proceeds (h : Reacts q s changes elapsed .addQuestions q') :
    Proceeds [] (questionRoom (q.sinsts s).fqsn) q q' := by
  cases h with
  | aged ha _ => exact (ages_of_applyElapsed ha).proceeds
  | @asked q₁ _ ha =>
    have hsrv : Proceeds [] 0 q₁ (q₁.setSinst s { q₁.sinsts s with hasSrv := false }) := proceeds_setSinst rfl
    exact ((ages_of_applyElapsed ha).proceeds.trans hsrv).trans (proceeds_setState _ s .updating)
  | expired _ ha => exact (ages_of_applyElapsed ha).proceeds
  | expiredShown _ ha hc => exact (ages_of_applyElapsed ha).proceeds.trans (proceeds_callbackOn hc)

theorem Reacts.proceeds_lostArec (h : Reacts q s changes elapsed .lostArec q') : Proceeds [] 0 q q' := by
  cases h with
  | lost _ hclean => exact (cleaned_of_cleanupSinst hclean).proceeds
  | lostShown _ hclean hc => exact (cleaned_of_cleanupSinst hclean).proceeds.trans (proceeds_callbackOn hc)

theorem alertSinst_proceeds (h : alertSinst .lostArec q s = some q') : Proceeds [] 0 q q' := by
  obtain ⟨q₂, changes, hc, hr⟩ := alertSinst_eq_some h
  cases hc
  exact hr.proceeds_lostArec

theorem evictArec_proceeds (h : evictArec q a = some q') : Proceeds [a] 0 q q' := by
  obtain ⟨q₁, h₁, -, rfl⟩ := evictArec_eq_some h
  have hall : Proceeds [] 0 q q₁ :=
    runAll_keeps (I := fun q₁ => Proceeds [] 0 q q₁) (fun _ _ _ hs hp => hp.trans (alertSinst_proceeds hs)) h₁ (.refl q)
  exact hall.trans (proceeds_setArec (r := { q₁.arecs a with nextRefresh := uint32Max }) rfl)

theorem askArec_proceeds {r : ARec n} (h : r.fqdn = (q.arecs a).fqdn) :
    Proceeds [a] (questionRoom (q.arecs a).fqdn) q (askArec q a r) := by
  have hgrows := grows_question q.tx r.fqdn tA
  rw [h] at hgrows
  unfold askArec
  rw [h]
  exact (proceeds_tx hgrows).trans (proceeds_setArec h)

/-- What `update_arec` can do when it is asked for questions. -/
inductive ArecTurn (q : Querier n k) (a : Fin n) (elapsed : Nat) : Querier n k → Int → Prop where
  | launches : (q.arecs a).state = .init → ArecTurn q a elapsed (askArec q a (q.arecs a).launch) 1
  | waits : (q.arecs a).state ≠ .init → elapsed < (q.arecs a).nextRefresh →
      ArecTurn q a elapsed (q.setArec a ((q.arecs a).age elapsed)) 0
  | retries : (q.arecs a).state = .querying → (q.arecs a).nextRefresh ≤ elapsed → 5 ≤ (q.arecs a).ttlPercent →
      ArecTurn q a elapsed (askArec q a ((q.arecs a).age elapsed).retry) 1
  | refreshes : (q.arecs a).state = .resolved → (q.arecs a).nextRefresh ≤ elapsed →
      ArecTurn q a elapsed (askArec q a ((q.arecs a).age elapsed).refresh) 1
  | evicts {q' : Querier n k} : (q.arecs a).state = .querying → (q.arecs a).nextRefresh ≤ elapsed →
      (q.arecs a).ttlPercent < 5 → evictArec (q.setArec a ((q.arecs a).age elapsed)) a = some q' →
        ArecTurn q a elapsed q' 0

theorem subtract_eq_zero {x y : Nat} : subtract x y = 0 ↔ x ≤ y := by
  unfold subtract
  split <;> omega

theorem arecTurn_of_updateArecAdd (h : updateArecAdd q a elapsed = some (q', ret)) :
    ArecTurn q a elapsed q' ret := by
  have hdue : ((q.arecs a).age elapsed).nextRefresh = 0 ↔ (q.arecs a).nextRefresh ≤ elapsed := subtract_eq_zero
  unfold updateArecAdd at h
  cases hst : (q.arecs a).state with
  | init =>
    simp only [hst, some.injEq, Prod.mk.injEq] at h
    obtain ⟨rfl, rfl⟩ := h
    exact .launches hst
  | querying =>
    simp only [hst, hdue] at h
    by_cases hover : (q.arecs a).nextRefresh ≤ elapsed
    · by_cases hlow : (q.arecs a).ttlPercent < 5
      · rw [if_pos ⟨hover, hlow⟩] at h
        simp only [bind_eq_bind, bind_eq_some_iff, Option.pure_def, some.injEq, Prod.mk.injEq] at h
        obtain ⟨q₁, hq₁, rfl, rfl⟩ := h
        exact .evicts hst hover hlow hq₁
      · rw [if_neg (fun hand => hlow hand.2), if_pos hover] at h
        cases h
        exact .retries hst hover (Nat.le_of_not_lt hlow)
    · rw [if_neg (fun hand => hover hand.1), if_neg hover] at h
      cases h
      exact .waits (by simp [hst]) (Nat.lt_of_not_le hover)
  | resolved =>
    simp only [hst, hdue] at h
    by_cases hover : (q.arecs a).nextRefresh ≤ elapsed
    · rw [if_pos hover] at h
      cases h
      exact .refreshes hst hover
    · rw [if_neg hover] at h
      cases h
      exact .waits (by simp [hst]) (Nat.lt_of_not_le hover)

theorem ArecTurn.proceeds (h : ArecTurn q a elapsed q' ret) :
    Proceeds [a] (questionRoom (q.arecs a).fqdn) q q' := by
  have hage : Proceeds [a] 0 q (q.setArec a ((q.arecs a).age elapsed)) := proceeds_setArec rfl
  cases h with
  | launches _ => exact askArec_proceeds rfl
  | waits _ _ => exact hage.mono (Nat.zero_le _)
  | retries _ _ _ => exact askArec_proceeds rfl
  | refreshes _ _ => exact askArec_proceeds rfl
  | evicts _ _ _ hevict =>
    have hgone := (hage.trans (evictArec_proceeds hevict)).mono (Nat.zero_le (questionRoom (q.arecs a).fqdn))
    exact { hgone with others := fun d hd => hgone.others d (fun hmem => hd (by simpa using hmem)) }

theorem ArecTurn.ret_nonneg (h : ArecTurn q a elapsed q' ret) : 0 ≤ ret := by
  cases h <;> decide

end cache

section passes
variable {about about' : List (Fin n)} {b b' elapsed : Nat} {st st₁ st' : Sched n k}
  {l : List (Fin n)} {q q' : Querier n k}

/-- A pass of `prepare_query` also counts the questions and looks for the next event. -/
structure Sched.Leads (about : List (Fin n)) (b : Nat) (st st' : Sched n k) : Prop where
  q : Proceeds about b st.q st'.q
  ret : st.ret ≤ st'.ret
  next : st'.next ≤ st.next

theorem Sched.Leads.refl (st : Sched n k) : st.Leads [] 0 st := ⟨.refl _, Int.le_refl _, Nat.le_refl _⟩

theorem Sched.Leads.trans (h : st.Leads about b st₁) (h' : st₁.Leads about' b' st') :
    st.Leads (about ++ about') (b + b') st' :=
  ⟨h.q.trans h'.q, Int.le_trans h.ret h'.ret, Nat.le_trans h'.next h.next⟩

theorem Sched.Leads.mono (h : st.Leads about b st') (hle : b ≤ b') : st.Leads about b' st' :=
  { h with q := h.q.mono hle }

theorem arecSched_eq_some {a : Fin n} (h : arecSched elapsed st a = some st') :
    ∃ ret, ArecTurn st.q a elapsed st'.q ret ∧ st'.ret = st.ret + ret ∧
      st'.next = min st.next (st'.q.arecs a).nextRefresh := by
  obtain ⟨q₁, ret, h₁, h⟩ := bind_pair_eq_some.mp h
  cases h
  exact ⟨ret, arecTurn_of_updateArecAdd h₁, rfl, rfl⟩

theorem arecSched_leads {a : Fin n} (h : arecSched elapsed st a = some st') :
    st.Leads [a] (questionRoom (st.q.arecs a).fqdn) st' := by
  obtain ⟨ret, hturn, hret, hnext⟩ := arecSched_eq_some h
  have hle := hturn.ret_nonneg
  exact ⟨hturn.proceeds, by omega, by rw [hnext]; exact Nat.min_le_left _ _⟩

theorem sinstSched_leads {s : Fin n} (h : sinstSched elapsed st s = some st') :
    st.Leads [] (questionRoom (st.q.sinsts s).fqsn) st' := by
  obtain ⟨q₁, ret, hu, h⟩ := bind_pair_eq_some.mp h
  cases h
  obtain ⟨q₂, changes, hc, hr⟩ := updateSinst_eq_some hu
  cases hc
  have hret : 0 ≤ ret := by
    unfold updateSinst at hu
    obtain ⟨q₃, changes', -, hu⟩ := bind_pair_eq_some.mp hu
    obtain ⟨q₄, changes'', -, hu⟩ := bind_pair_eq_some.mp hu
    simp only [Option.pure_def, some.injEq, Prod.mk.injEq] at hu
    rw [← hu.2]
    split <;> decide
  exact ⟨hr.proceeds, by show st.ret ≤ st.ret + ret; omega, Nat.min_le_left _ _⟩

theorem runAll_leads {α : Type} {f : Sched n k → α → Option (Sched n k)} (names : Querier n k → α → Mem)
    (abouts : α → List (Fin n))
    (hstep : ∀ st x st', f st x = some st' → st.Leads (abouts x) (questionRoom (names st.q x)) st')
    (hsame : ∀ {about b} {q q' : Querier n k}, Proceeds about b q q' → ∀ x, names q' x = names q x)
    {l : List α} (h : runAll f l st = some st') :
    st.Leads (l.flatMap abouts) ((l.map (fun x => questionRoom (names st.q x))).sum) st' := by
  induction l generalizing st with
  | nil =>
    cases h
    exact .refl _
  | cons x l ih =>
    obtain ⟨st₁, hx, h⟩ := runAll_cons_eq_some.mp h
    have hfirst := hstep st x st₁ hx
    have hrest := ih h
    have hnames : l.map (fun y => questionRoom (names st₁.q y)) = l.map (fun y => questionRoom (names st.q y)) := by
      refine map_congr_left (fun y _ => ?_)
      rw [hsame hfirst.q y]
    rw [hnames] at hrest
    exact hfirst.trans hrest

theorem arecPass_leads (h : runAll (arecSched elapsed) l st = some st') :
    st.Leads l ((l.map (fun a => questionRoom (st.q.arecs a).fqdn)).sum) st' := by
  have hpass := runAll_leads (fun q a => (q.arecs a).fqdn) (fun a => [a])
    (fun _ _ _ hs => arecSched_leads hs) (fun hp a => hp.fqdn a) h
  rw [flatMap_singleton'] at hpass
  exact hpass

theorem sinstPass_leads (h : runAll (sinstSched elapsed) l st = some st') :
    st.Leads [] ((l.map (fun s => questionRoom (st.q.sinsts s).fqsn)).sum) st' := by
  have hpass := runAll_leads (fun q s => (q.sinsts s).fqsn) (fun _ => [])
    (fun _ _ _ hs => sinstSched_leads hs) (fun hp s => hp.fqsn s) h
  have hnone : l.flatMap (fun _ => ([] : List (Fin n))) = [] := flatMap_eq_nil_iff.mpr (fun _ _ => rfl)
  rw [hnone] at hpass
  exact hpass

def Querier.monitorRoom (q : Querier n k) (c : Fin k) : Nat :=
  questionRoom (q.smons c).fqst + ((q.smons c).sinsts.map (fun s => questionRoom (q.sinsts s).fqsn)).sum

def Querier.questionsRoom (q : Querier n k) : Nat :=
  (q.arecsActive.map (fun a => questionRoom (q.arecs a).fqdn)).sum + (q.smonsActive.map q.monitorRoom).sum

theorem Proceeds.monitorRoom_le (h : Proceeds about b q q') (c : Fin k) :
    q'.monitorRoom c ≤ q.monitorRoom c := by
  have hnames : (q'.smons c).sinsts.map (fun s => questionRoom (q'.sinsts s).fqsn) =
      (q'.smons c).sinsts.map (fun s => questionRoom (q.sinsts s).fqsn) := by
    refine map_congr_left (fun s _ => ?_)
    rw [h.fqsn s]
  unfold Querier.monitorRoom
  rw [h.fqst c, hnames]
  exact Nat.add_le_add_left (((h.members c).map _).sum_le_sum (fun _ _ => Nat.zero_le _)) _

theorem Proceeds.questionsRoom_le (h : Proceeds about b q q') : q'.questionsRoom ≤ q.questionsRoom := by
  have hnames : q'.arecsActive.map (fun a => questionRoom (q'.arecs a).fqdn) =
      q'.arecsActive.map (fun a => questionRoom (q.arecs a).fqdn) := by
    refine map_congr_left (fun a _ => ?_)
    rw [h.fqdn a]
  unfold Querier.questionsRoom
  rw [hnames, h.monitors]
  apply Nat.add_le_add
  · exact (h.active.map _).sum_le_sum (fun _ _ => Nat.zero_le _)
  · exact sum_le_sum (fun c _ => h.monitorRoom_le c)

theorem refreshMonitor_leads {c : Fin k} (h : refreshMonitor elapsed st c = (st₁, some st')) :
    st.Leads [] (questionRoom (st.q.smons c).fqst) st' := by
  unfold refreshMonitor at h
  dsimp only at h
  split at h
  · split at h
    · cases h
    · next tx hask =>
      cases h
      have hgrows := grows_question st.q.tx (st.q.smons c).fqst tAny
      rw [hask] at hgrows
      have hset : Proceeds [] 0 { st.q with tx } ({ st.q with tx }.setSmon c ((st.q.smons c).refresh st.q.tx.cur)) :=
        proceeds_setSmon rfl rfl
      exact ⟨(proceeds_tx hgrows).trans hset, by show st.ret ≤ st.ret + 1; omega, Nat.le_refl _⟩
  · cases h
    have hset : Proceeds [] 0 st.q (st.q.setSmon c { st.q.smons c with
        nextRefresh := subtract (st.q.smons c).nextRefresh elapsed }) := proceeds_setSmon rfl rfl
    exact ⟨hset.mono (Nat.zero_le _), Int.le_refl _, Nat.min_le_left _ _⟩

theorem refreshMonitor_full {c : Fin k} (h : refreshMonitor elapsed st c = (st', none)) :
    st.Leads [] 0 st' ∧ mdnsAddQuestion st.q.tx (st.q.smons c).fqst tAny cIn = none := by
  unfold refreshMonitor at h
  dsimp only at h
  split at h
  · split at h
    · next hask =>
      cases h
      have hset : Proceeds [] 0 st.q (st.q.setSmon c ((st.q.smons c).refresh st.q.tx.cur)) := proceeds_setSmon rfl rfl
      exact ⟨⟨hset, Int.le_refl _, Nat.le_refl _⟩, hask⟩
    · cases h
  · cases h

theorem queryMonitors_leads {cs : List (Fin k)} {all : Bool} (h : queryMonitors elapsed cs st = some (st', all)) :
    st.Leads [] ((cs.map st.q.monitorRoom).sum) st' ∧
      ∀ hd body, st.q.tx.Holds hd body →
        headerSize + body.length + (cs.map st.q.monitorRoom).sum ≤ dataMax → all = true := by
  induction cs generalizing st with
  | nil =>
    cases h
    exact ⟨.refl _, fun _ _ _ _ => rfl⟩
  | cons c cs ih =>
    rw [map_cons, sum_cons]
    unfold queryMonitors at h
    split at h
    · next st₁ heq =>
      cases h
      obtain ⟨hleads, hfull⟩ := refreshMonitor_full heq
      refine ⟨hleads.mono (Nat.zero_le _), fun hd body hm hroom => ?_⟩
      have hfits : headerSize + body.length + questionRoom (st.q.smons c).fqst ≤ dataMax := by
        unfold Querier.monitorRoom at hroom
        omega
      obtain ⟨m', hask, -⟩ := carries_question hm hfits tAny
      cases hfull.symm.trans hask
    · next st₁ st₂ heq =>
      simp only [bind_eq_bind, bind_eq_some_iff] at h
      obtain ⟨st₃, h₃, h⟩ := h
      have hfirst := refreshMonitor_leads heq
      -- the instances are those that the monitor still has, under their old names
      have hpass := sinstPass_leads h₃
      have hsum : ((st₂.q.smons c).sinsts.map (fun s => questionRoom (st₂.q.sinsts s).fqsn)).sum ≤
          ((st.q.smons c).sinsts.map (fun s => questionRoom (st.q.sinsts s).fqsn)).sum := by
        have hle := hfirst.q.monitorRoom_le c
        have hname := hfirst.q.fqst c
        unfold Querier.monitorRoom at hle
        rw [hname] at hle
        omega
      have hone : st.Leads [] (st.q.monitorRoom c) st₃ := (hfirst.trans hpass).mono (Nat.add_le_add_left hsum _)
      have hrooms : (cs.map st₃.q.monitorRoom).sum ≤ (cs.map st.q.monitorRoom).sum :=
        sum_le_sum (fun d _ => hone.q.monitorRoom_le d)
      obtain ⟨hrest, hall⟩ := ih h
      refine ⟨(hone.trans hrest).mono (Nat.add_le_add_left hrooms _), fun hd body hm hroom => ?_⟩
      obtain ⟨hd', more, hm', hmore⟩ := hone.q.tx hd body hm
      refine hall hd' (body ++ more) hm' ?_
      rw [length_append]
      omega

theorem answerMonitor_leads (st : Sched n k) (c : Fin k) : ∃ b, st.Leads [] b (answerMonitor st c) := by
  unfold answerMonitor
  dsimp only
  split
  · obtain ⟨b, hgrows⟩ :=
      grows_addKnownAnswers (st.q.smons c).fqstOffset ((st.q.smons c).sinsts.map st.q.sinsts) st.q.tx
    have hset : ∀ q : Querier n k, q.smons c = st.q.smons c →
        Proceeds [] 0 q (q.setSmon c { st.q.smons c with nextRefresh := (st.q.smons c).refreshPeriod }) := by
      intro q hc
      apply proceeds_setSmon <;> rw [hc]
    exact ⟨b, (proceeds_tx hgrows).trans (hset _ rfl), Int.le_refl _, Nat.min_le_left _ _⟩
  · exact ⟨0, .refl st⟩

theorem answerMonitors_leads (cs : List (Fin k)) (st : Sched n k) : ∃ b, st.Leads [] b (cs.foldl answerMonitor st) := by
  induction cs generalizing st with
  | nil => exact ⟨0, .refl st⟩
  | cons c cs ih =>
    obtain ⟨b, hfirst⟩ := answerMonitor_leads st c
    obtain ⟨b', hrest⟩ := ih (answerMonitor st c)
    exact ⟨b + b', hfirst.trans hrest⟩

end passes

section prepare
variable {elapsed : Nat} {live : List (Fin k)} {q q₁ q' : Querier n k} {st : Sched n k} {a : Fin n}

/-- Where `prepare_query` begins. -/
def Querier.start (q : Querier n k) : Sched n k := ⟨{ q with tx := mdnsQueryInit q.tx }, 0, uint32Max⟩

theorem prepareQuery_ends (h : prepareQuery elapsed q = some st) :
    ∃ st₁ st₂ all, runAll (arecSched elapsed) q.arecsActive q.start = some st₁ ∧
      queryMonitors elapsed st₁.q.smonsActive st₁ = some (st₂, all) ∧
      ((all = false ∧ st = { st₂ with ret := -1 }) ∨ (all = true ∧ st₂.ret = 0 ∧ st = st₂) ∨
        (all = true ∧ st₂.ret ≠ 0 ∧ st = { st₂.q.smonsActive.foldl answerMonitor st₂ with
          ret := if (st₂.q.smonsActive.foldl answerMonitor st₂).ret > 0 then 1 else 0 })) := by
  unfold prepareQuery at h
  simp only [bind_eq_bind, bind_eq_some_iff] at h
  obtain ⟨st₁, h₁, ⟨st₂, all⟩, h₂, h⟩ := h
  refine ⟨st₁, st₂, all, h₁, h₂, ?_⟩
  cases all with
  | false =>
    cases h
    exact .inl ⟨rfl, rfl⟩
  | true =>
    dsimp only at h
    rw [if_pos rfl] at h
    split at h
    · next hzero =>
      cases h
      exact .inr (.inl ⟨rfl, hzero, rfl⟩)
    · next hzero =>
      cases h
      exact .inr (.inr ⟨rfl, hzero, rfl⟩)

theorem prepareQuery_eq_some (h : prepareQuery elapsed q = some st) :
    ∃ st₁ st₂ all, runAll (arecSched elapsed) q.arecsActive q.start = some st₁ ∧
      queryMonitors elapsed st₁.q.smonsActive st₁ = some (st₂, all) ∧
      (∃ b, Proceeds [] b st₂.q st.q) ∧ st.next ≤ st₂.next ∧ (all = true → 0 < st₂.ret → st.ret = 1) := by
  obtain ⟨st₁, st₂, all, h₁, h₂, hend⟩ := prepareQuery_ends h
  refine ⟨st₁, st₂, all, h₁, h₂, ?_⟩
  rcases hend with ⟨rfl, rfl⟩ | ⟨-, hzero, rfl⟩ | ⟨-, -, rfl⟩
  · exact ⟨⟨0, .refl _⟩, Nat.le_refl _, nofun⟩
  · exact ⟨⟨0, .refl _⟩, Nat.le_refl _, fun _ hpos => absurd hzero (by omega)⟩
  · obtain ⟨b, hleads⟩ := answerMonitors_leads st₂.q.smonsActive st₂
    refine ⟨⟨b, hleads.q⟩, hleads.next, fun _ hpos => if_pos ?_⟩
    have hret := hleads.ret
    omega

theorem prepareQuery_proceeds (h : prepareQuery elapsed q = some st) :
    ∃ b, Proceeds q.arecsActive b q.start.q st.q := by
  obtain ⟨st₁, st₂, all, h₁, h₂, ⟨b, hlast⟩, -, -⟩ := prepareQuery_eq_some h
  have hall := ((arecPass_leads h₁).q.trans (queryMonitors_leads h₂).1.q).trans hlast
  rw [append_nil, append_nil] at hall
  exact ⟨_, hall⟩

theorem prepareQuery_stays (hl : q.reg.Linked live) (h : prepareQuery elapsed q = some st) :
    Advances (fun r s a => r.host s = some a) live q st.q :=
  prepareQuery_advances (fun _ _ _ hhost => hhost) hl h

theorem Advances.referred (h : Advances (fun r s a => r.host s = some a) live q q') (hl : q.reg.Linked live)
    (hr : a ∈ q.arecsActive → (q.arecs a).sinsts ≠ []) : a ∈ q'.arecsActive → (q'.arecs a).sinsts ≠ [] :=
  h.moves.referred hl (List.Subset.refl _) hr

theorem evictArec_retires (hl : q.reg.Linked live) (hr : a ∈ q.arecsActive → (q.arecs a).sinsts ≠ [])
    (h : evictArec q a = some q') : a ∉ q'.arecsActive := by
  intro hactive
  have hadv : Advances (fun r s a => r.host s = some a) live q q' := evictArec_advances (fun _ _ _ hhost => hhost) hl h
  apply hadv.referred hl hr hactive
  obtain ⟨q₁, h₁, hnil, rfl⟩ := evictArec_eq_some h
  rw [setArec_self]
  exact hnil

theorem ArecTurn.tx (h : ArecTurn q a elapsed q' 1) :
    q'.tx = (mdnsAddQuestion q.tx (q.arecs a).fqdn tA cIn).getD q.tx := by
  cases h with
  | launches _ => rfl
  | retries _ _ _ => rfl
  | refreshes _ _ => rfl

/-- The turn that an A record has in a query: what it finds, what it leaves, and that a question
which it asks is sent if the message has room for all questions. -/
structure TakesTurn (live : List (Fin k)) (q : Querier n k) (a : Fin n) (elapsed : Nat) (st : Sched n k)
    (q₁ q₂ : Querier n k) (ret : Int) : Prop where
  turn : ArecTurn q₁ a elapsed q₂ ret
  before : q₁.arecs a = { q.arecs a with sinsts := (q₁.arecs a).sinsts }
  stays : Advances (fun r s a => r.host s = some a) live q q₁
  after : st.q.arecs a = { q₂.arecs a with sinsts := (st.q.arecs a).sinsts }
  active : st.q.arecsActive.Sublist q₂.arecsActive
  next : st.next ≤ (q₂.arecs a).nextRefresh
  sent : headerSize + q.questionsRoom ≤ dataMax → ret = 1 →
    st.ret = 1 ∧ st.q.tx.Carries (questionBytes (q.arecs a).fqdn tA)

theorem arecPass_stays {l : List (Fin n)} {st st' : Sched n k} (hl : st.q.reg.Linked live)
    (h : runAll (arecSched elapsed) l st = some st') : Advances (fun r s a => r.host s = some a) live st.q st'.q := by
  refine runAll_keeps (I := fun st' => Advances (fun r s a => r.host s = some a) live st.q st'.q) ?_ h (.refl _)
  intro st₁ a st₂ hst hadv
  exact hadv.trans (arecSched_advances (fun _ _ _ hhost => hhost) (hadv.linked hl (List.Subset.refl _)) hst)

theorem prepareQuery_turn (hl : q.reg.Linked live) (h : prepareQuery elapsed q = some st) (ha : a ∈ q.arecsActive) :
    ∃ q₁ q₂ ret, TakesTurn live q a elapsed st q₁ q₂ ret := by
  obtain ⟨st₁, st₂, all, h₁, h₂, ⟨b, hlast⟩, hnext, hsent⟩ := prepareQuery_eq_some h
  have harecs := arecPass_leads h₁
  obtain ⟨hmonitors, hall⟩ := queryMonitors_leads h₂
  -- the pass over the A records, up to its turn and from there on
  have hnodup : q.arecsActive.Nodup := hl.hosts.onNodup
  obtain ⟨l₁, l₂, hsplit⟩ := append_of_mem ha
  rw [hsplit] at h₁ hnodup
  obtain ⟨-, hcons, hdisj⟩ := nodup_append.mp hnodup
  have hout₁ : a ∉ l₁ := fun hmem => hdisj a hmem a (mem_cons_self ..) rfl
  have hout₂ : a ∉ l₂ := (nodup_cons.mp hcons).1
  obtain ⟨sta, hsta, h₁⟩ := runAll_append_eq_some.mp h₁
  obtain ⟨stb, hstb, h₁⟩ := runAll_cons_eq_some.mp h₁
  obtain ⟨ret, hturn, hret, hstbnext⟩ := arecSched_eq_some hstb
  have hbefore := arecPass_leads hsta
  have hafter := (arecPass_leads h₁).trans hmonitors
  have hall' := hafter.q.trans hlast
  have hout : a ∉ l₂ ++ [] ++ [] := by
    rw [append_nil, append_nil]
    exact hout₂
  refine ⟨sta.q, stb.q, ret, ⟨hturn, hbefore.q.others a hout₁, ?_, hall'.others a hout, hall'.active, ?_, ?_⟩⟩
  · have hinit : Advances (fun r s a => r.host s = some a) live q q.start.q := advances_of_reg rfl rfl
    exact hinit.trans (arecPass_stays hl hsta)
  · have hle : st₂.next ≤ stb.next := hafter.next
    rw [hstbnext] at hle
    exact hnext.trans (hle.trans (Nat.min_le_right _ _))
  · rintro hroom rfl
    have hstart : q.start.q.tx.Holds queryHeader [] := holds_mdnsQueryInit q.tx
    have hrooms : (st₁.q.smonsActive.map st₁.q.monitorRoom).sum ≤ (q.smonsActive.map q.monitorRoom).sum := by
      rw [harecs.q.monitors]
      exact sum_le_sum (fun c _ => harecs.q.monitorRoom_le c)
    unfold Querier.questionsRoom at hroom
    constructor
    · obtain ⟨hd₁, more, hm₁, hmore⟩ := harecs.q.tx _ _ hstart
      have hnonneg : q.start.ret ≤ sta.ret := hbefore.ret
      have hle : stb.ret ≤ st₂.ret := hafter.ret
      have hzero : q.start.ret = 0 := rfl
      refine hsent (hall hd₁ _ hm₁ ?_) (by omega)
      rw [nil_append]
      have hsame : (q.arecsActive.map (fun a => questionRoom (q.start.q.arecs a).fqdn)).sum =
        (q.arecsActive.map (fun a => questionRoom (q.arecs a).fqdn)).sum := rfl
      omega
    · obtain ⟨hd₁, more, hm₁, hmore⟩ := hbefore.q.tx _ _ hstart
      have hname : (sta.q.arecs a).fqdn = (q.arecs a).fqdn := hbefore.q.fqdn a
      have hsum : (l₁.map (fun a => questionRoom (q.start.q.arecs a).fqdn)).sum + questionRoom (q.arecs a).fqdn ≤
          (q.arecsActive.map (fun a => questionRoom (q.arecs a).fqdn)).sum := by
        rw [hsplit, map_append, sum_append, map_cons, sum_cons]
        have hsame : (l₁.map (fun a => questionRoom (q.start.q.arecs a).fqdn)).sum =
          (l₁.map (fun a => questionRoom (q.arecs a).fqdn)).sum := rfl
        omega
      have hfits : headerSize + (([] : Mem) ++ more).length + questionRoom (sta.q.arecs a).fqdn ≤ dataMax := by
        rw [hname, nil_append]
        omega
      obtain ⟨m', hask, hcarries⟩ := carries_question hm₁ hfits tA
      refine hall'.tx.carries ?_
      rw [hturn.tx, hask, ← hname]
      exact hcarries

end prepare

end Mdns
