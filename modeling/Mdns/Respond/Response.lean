import Mdns.Respond.Packets

/-!
# What a responder answers

For questions whose names are known, `prepare_response` is one series of calls: the records of
`respond`, in their order. It returns an error exactly if they do not all fit.
-/
namespace Mdns
open Lib List

section spec

def NamedResponder.hostAnswers (n : NamedResponder) (q : Labels × Nat) : List (Entry WireName) :=
  if (q.2 = tAny ∨ q.2 = tA) ∧ q.1 = n.fqdn.labels then [n.address 255] else []

def NamedResponder.reverseAnswers (n : NamedResponder) (q : Labels × Nat) : List (Entry WireName) :=
  if (q.2 = tAny ∨ q.2 = tPtr) ∧ q.1 = n.arpa.labels then [n.reverse 255] else []

def NamedResponder.ownAnswers (n : NamedResponder) (q : Labels × Nat) : List (Entry WireName) :=
  n.hostAnswers q ++ n.reverseAnswers q

/-- The records of a service for a question, and what is there afterwards. -/
def NamedService.answers (fqdn : WireName) (q : Labels × Nat) (s : NamedService) (added : Added) :
    List (Entry WireName) × Added :=
  if q.2 = tAny ∨ q.2 = tPtr then
    if q.1 = s.ptr.labels ∨ q.1 = s.fqsn.labels then
      ((if added.srv then [] else [s.srv fqdn 255]) ++ [s.pointer 255] ++ (if added.txt then [] else s.txt 255),
        { srv := true, txt := added.txt || s.service.keyvals.isSome })
    else ([], added)
  else if q.2 = tSrv then
    if q.1 = s.fqsn.labels ∧ added.srv = false then ([s.srv fqdn 255], { added with srv := true }) else ([], added)
  else if q.2 = tTxt then
    if q.1 = s.fqsn.labels ∧ s.service.keyvals.isSome ∧ added.txt = false then (s.txt 255, { added with txt := true })
    else ([], added)
  else ([], added)

def NamedResponder.served (n : NamedResponder) (q : Labels × Nat) (ss : List (NamedService × Added)) :
    List (Entry WireName) :=
  ss.flatMap (fun x => (x.1.answers n.fqdn q x.2).1)

def NamedResponder.noted (n : NamedResponder) (q : Labels × Nat) (ss : List (NamedService × Added)) :
    List (NamedService × Added) :=
  ss.map (fun x => (x.1, (x.1.answers n.fqdn q x.2).2))

/-- The records for the questions, and whether the host or a service has any. -/
def NamedResponder.respond (n : NamedResponder) :
    List (Labels × Nat) → List (NamedService × Added) → List (Entry WireName) × Bool × Bool
  | [], _ => ([], false, false)
  | q :: qs, ss =>
    let (rest, send, delay) := n.respond qs (n.noted q ss)
    (n.ownAnswers q ++ n.served q ss ++ rest, !(n.ownAnswers q).isEmpty || send, !(n.served q ss).isEmpty || delay)

def NamedResponder.responses (n : NamedResponder) (asked : List (Labels × Nat)) : List (Entry WireName) × Bool × Bool :=
  n.respond asked (n.services.map (·, {}))

inductive NamedResponder.Due (n : NamedResponder) (q : Labels × Nat) : Entry WireName → Prop where
  | address : q.2 = tAny ∨ q.2 = tA → q.1 = n.fqdn.labels → Due n q (n.address 255)
  | reverse : q.2 = tAny ∨ q.2 = tPtr → q.1 = n.arpa.labels → Due n q (n.reverse 255)

inductive NamedService.Due (fqdn : WireName) (q : Labels × Nat) (s : NamedService) : Entry WireName → Prop where
  | all {e : Entry WireName} : q.2 = tAny ∨ q.2 = tPtr → q.1 = s.ptr.labels ∨ q.1 = s.fqsn.labels →
      e ∈ s.announced fqdn 255 → Due fqdn q s e
  | srv : q.2 = tSrv → q.1 = s.fqsn.labels → Due fqdn q s (s.srv fqdn 255)
  | txt {e : Entry WireName} : q.2 = tTxt → q.1 = s.fqsn.labels → e ∈ s.txt 255 → Due fqdn q s e

def services (ss : List (NamedService × Added)) : List (Service × Added) := ss.map (fun x => (x.1.service, x.2))

end spec

section take
variable {a : Answering} {es es' : List (Entry WireName)} {s d s' d' : Bool} {α : Type}

def Answering.take (a : Answering) (es : List (Entry WireName)) (s d : Bool) : Reply Answering := do
  let a ← a.adds ((es.map Entry.proposed).flatMap Entry.answerAdds)
  return { a with send := a.send || s, sendDelay := a.sendDelay || d }

theorem addAll_append (adds adds' : List Add) (m : Message) :
    addAll (adds ++ adds') m = if (addAll adds m).2 then addAll adds' (addAll adds m).1 else addAll adds m := by
  induction adds generalizing m with
  | nil => rfl
  | cons add adds ih =>
    rw [cons_append, addAll, addAll]
    cases add m with
    | none => rfl
    | some m' => exact ih m'

theorem Answering.take_nil (a : Answering) : a.take [] false false = pure a := by
  simp [Answering.take, Answering.adds, addAll]

theorem Answering.take_take (a : Answering) (es es' : List (Entry WireName)) (s d s' d' : Bool) :
    (a.take es s d >>= fun a => a.take es' s' d') = a.take (es ++ es') (s || s') (d || d') := by
  unfold Answering.take
  rw [map_append, flatMap_append]
  unfold Answering.adds
  rw [addAll_append]
  cases addAll ((es.map Entry.proposed).flatMap Entry.answerAdds) a.tx with
  | mk tx ok =>
    cases ok with
    | false => rfl
    | true =>
      show Bind.bind _ _ = _
      cases hadd : addAll ((es'.map Entry.proposed).flatMap Entry.answerAdds) tx with
      | mk tx' ok' => cases ok' <;> simp [hadd, Bool.or_assoc]

theorem Answering.take_eq (a : Answering) (adds : List Add) {es : List (Entry WireName)}
    (h : adds = (es.map Entry.proposed).flatMap Entry.answerAdds) (s d : Bool) :
    a.take es s d = a.adds adds >>= fun a => pure { a with send := a.send || s, sendDelay := a.sendDelay || d } := by
  rw [h]
  rfl

end take

section comes
variable {n : NamedResponder} {s : NamedService} {rx : Message} {q : Question} {ls : Labels} {a : Answering}
  {es : List (Entry WireName)}

theorem asksFor_comes {name : Mem} {off : Nat} {ls' : Labels} (hq : Expands (.packet rx.data) q.qname ls)
    (hname : Expands (.plain name) off ls') :
    Comes (fun fuel => asksFor fuel rx q name off) (pure (decide (ls = ls'))) := by
  obtain ⟨fuel, hcmp⟩ := dnameCmp_comes hq hname
  refine ⟨fuel, ?_⟩
  intro fuel' hle
  have heq : dnameCmp fuel' (.packet rx.data) q.qname (.plain name) off = _ := hcmp fuel' hle
  simp only [asksFor, heq, cmpLabels_eq_zero]

theorem WireName.expands (w : WireName) : Expands (.plain w.mem) 0 w.labels := expands_encodeName w.sizes w.written

theorem NamedResponder.fqdn_expands (n : NamedResponder) : Expands (.plain n.responder.fqdn) 0 n.fqdn.labels :=
  n.fqdn_mem ▸ n.fqdn.expands

theorem NamedResponder.arpa_expands (n : NamedResponder) : Expands (.plain n.responder.inAddrArpa) 0 n.arpa.labels :=
  n.arpa_mem ▸ n.arpa.expands

theorem NamedService.fqsn_expands (s : NamedService) : Expands (.plain s.service.fqsn) 0 s.fqsn.labels :=
  s.fqsn_mem ▸ s.fqsn.expands

theorem NamedService.ptr_expands (s : NamedService) :
    Expands (.plain s.service.fqsn) s.service.ptrname s.ptr.labels := by
  apply expands_encodeName s.ptr.sizes
  obtain ⟨front, back, heq, hfront⟩ := s.ptr.written
  obtain rfl := eq_nil_of_length_eq_zero hfront
  rw [s.ptr_mem, Service.ptr, nil_append] at heq
  have hlt : s.service.ptrname < s.service.fqsn.length := by
    by_contra hle
    rw [drop_eq_nil_of_le (by omega)] at heq
    simp [encodeName] at heq
  refine ⟨s.service.fqsn.take s.service.ptrname, back, ?_, ?_⟩
  · rw [append_assoc, ← heq, take_append_drop]
  · rw [length_take]
    omega

theorem own_comes {c : Prop} [Decidable c] {name : Mem} {ls' : Labels} {e : Entry WireName} {adds : List Add}
    (hq : Expands (.packet rx.data) q.qname ls) (hname : Expands (.plain name) 0 ls')
    (hadds : adds = ([e].map Entry.proposed).flatMap Entry.answerAdds) (a : Answering)
    (hes : es = if c ∧ ls = ls' then [e] else []) :
    Comes (fun fuel => show Reply Answering from
      if c then do
        if ← asksFor fuel rx q name 0 then
          let a ← a.adds adds
          return { a with send := true }
        else return a
      else return a) (a.take es (!es.isEmpty) false) := by
  subst hes
  by_cases hc : c
  · simp only [hc, true_and, if_true]
    apply comes_bind_pure (asksFor_comes hq hname)
    by_cases heq : ls = ls'
    · simp only [heq, decide_true, if_true]
      rw [Answering.take_eq a adds hadds]
      simp only [isEmpty_cons, Bool.not_false, Bool.or_true, Bool.or_false]
      exact comes_const _
    · simp only [heq, decide_false, if_false, isEmpty_nil, Bool.not_true, Answering.take_nil]
      exact comes_const _
  · simp only [hc, false_and, if_false, isEmpty_nil, Bool.not_true, Answering.take_nil]
    exact comes_const _

theorem answerHost_comes (n : NamedResponder) (hq : Expands (.packet rx.data) q.qname ls) (a : Answering) :
    Comes (fun fuel => answerHost fuel n.responder rx q a)
      (a.take (n.hostAnswers (ls, q.qtype)) (!(n.hostAnswers (ls, q.qtype)).isEmpty) false) :=
  own_comes hq n.fqdn_expands (by rw [← n.fqdn_mem]; rfl) a rfl

theorem answerReverse_comes (n : NamedResponder) (hq : Expands (.packet rx.data) q.qname ls) (a : Answering) :
    Comes (fun fuel => answerReverse fuel n.responder rx q a)
      (a.take (n.reverseAnswers (ls, q.qtype)) (!(n.reverseAnswers (ls, q.qtype)).isEmpty) false) :=
  own_comes hq n.arpa_expands (by rw [← n.arpa_mem, ← n.fqdn_mem]; rfl) a rfl

def Answering.serve (a : Answering) (x : List (Entry WireName) × Added) : Reply (Answering × Added) := do
  let a ← a.take x.1 false (!x.1.isEmpty)
  return (a, x.2)

theorem Answering.serve_nil (a : Answering) (added : Added) : a.serve ([], added) = pure (a, added) := by
  show (a.take [] false (!List.isEmpty []) >>= fun a => pure (a, added)) = _
  rw [isEmpty_nil, Bool.not_true, Answering.take_nil, pure_bind]

theorem Answering.serve_eq (a : Answering) (adds : List Add) (added : Added) (hne : es ≠ [])
    (h : adds = (es.map Entry.proposed).flatMap Entry.answerAdds) :
    a.serve (es, added) = a.adds adds >>= fun a => pure ({ a with sendDelay := true }, added) := by
  have hempty : es.isEmpty = false := by
    cases es with
    | nil => exact absurd rfl hne
    | cons e es => rfl
  show (a.take es false (!es.isEmpty) >>= fun a => pure (a, added)) = _
  rw [hempty, Answering.take_eq a adds h, bind_assoc]
  simp

theorem srvOnce_eq (n : NamedResponder) (s : NamedService) (added : Added) : srvOnce n.responder s.service added =
    ((if added.srv then [] else [s.srv n.fqdn 255]).map Entry.proposed).flatMap Entry.answerAdds := by
  unfold srvOnce
  cases added.srv with
  | true => rfl
  | false =>
    rw [← s.fqsn_mem, ← n.fqdn_mem]
    rfl

theorem txtOnce_eq (s : NamedService) (added : Added) : txtOnce s.service added =
    ((if added.txt then [] else s.txt 255).map Entry.proposed).flatMap Entry.answerAdds := by
  unfold txtOnce
  cases added.txt with
  | true => rfl
  | false => exact txtAdds_answer s 255

theorem answerPtr_comes (hq : Expands (.packet rx.data) q.qname ls) (htype : q.qtype = tAny ∨ q.qtype = tPtr)
    (a : Answering) (added : Added) :
    Comes (fun fuel => answerPtr fuel n.responder rx q s.service a added)
      (a.serve (s.answers n.fqdn (ls, q.qtype) added)) := by
  have hanswers : s.answers n.fqdn (ls, q.qtype) added = if ls = s.ptr.labels ∨ ls = s.fqsn.labels then
      ((if added.srv then [] else [s.srv n.fqdn 255]) ++ [s.pointer 255] ++ (if added.txt then [] else s.txt 255),
        { srv := true, txt := added.txt || s.service.keyvals.isSome })
    else ([], added) := if_pos htype
  have hadds : srvOnce n.responder s.service added ++
      [fun m => mdnsAddAnswer m s.service.ptr tPtr cFlush 255, fun m => mdnsAddName m s.service.fqsn] ++
        txtOnce s.service added =
      (((if added.srv then [] else [s.srv n.fqdn 255]) ++ [s.pointer 255] ++
        (if added.txt then [] else s.txt 255)).map Entry.proposed).flatMap Entry.answerAdds := by
    rw [srvOnce_eq, txtOnce_eq, ← s.fqsn_mem, ← s.ptr_mem, map_append, map_append, flatMap_append,
      flatMap_append]
    rfl
  rw [hanswers]
  unfold answerPtr
  apply comes_bind_pure (asksFor_comes hq s.ptr_expands)
  by_cases hptr : ls = s.ptr.labels
  · simp only [hptr, decide_true, if_true, pure_bind, true_or]
    rw [Answering.serve_eq a _ _ (by simp) hadds]
    exact comes_const _
  · simp only [hptr, decide_false, false_or, Bool.false_eq_true, if_false]
    apply comes_bind_pure (asksFor_comes hq s.fqsn_expands)
    by_cases hname : ls = s.fqsn.labels
    · simp only [hname, decide_true, if_true]
      rw [Answering.serve_eq a _ _ (by simp) hadds]
      exact comes_const _
    · simp only [hname, decide_false, Bool.false_eq_true, if_false, Answering.serve_nil]
      exact comes_const _

theorem answerSrv_comes (hq : Expands (.packet rx.data) q.qname ls) (htype : q.qtype = tSrv)
    (a : Answering) (added : Added) :
    Comes (fun fuel => answerSrv fuel n.responder rx q s.service a added)
      (a.serve (s.answers n.fqdn (ls, q.qtype) added)) := by
  have hanswers : s.answers n.fqdn (ls, q.qtype) added =
      if ls = s.fqsn.labels ∧ added.srv = false then ([s.srv n.fqdn 255],
        { added with srv := true }) else ([], added) := by
    rw [htype]
    rfl
  rw [hanswers]
  unfold answerSrv
  apply comes_bind_pure (asksFor_comes hq s.fqsn_expands)
  by_cases hname : ls = s.fqsn.labels ∧ added.srv = false
  · have hadds := srvOnce_eq n s added
    simp only [hname.2, Bool.false_eq_true, if_false] at hadds
    simp only [hname, decide_true, Bool.not_false, Bool.and_self, if_true, and_self]
    rw [Answering.serve_eq a _ _ (by simp) hadds]
    exact comes_const _
  · have hnot : (decide (ls = s.fqsn.labels) && !added.srv) = false := by simpa using hname
    simp only [hname, hnot, Bool.false_eq_true, if_false, Answering.serve_nil]
    exact comes_const _

theorem answerTxt_comes (hq : Expands (.packet rx.data) q.qname ls) (htype : q.qtype = tTxt)
    (a : Answering) (added : Added) :
    Comes (fun fuel => answerTxt fuel rx q s.service a added) (a.serve (s.answers n.fqdn (ls, q.qtype) added)) := by
  have hanswers : s.answers n.fqdn (ls, q.qtype) added =
      if ls = s.fqsn.labels ∧ s.service.keyvals.isSome ∧ added.txt = false then (s.txt 255, { added with txt := true })
      else ([], added) := by
    rw [htype]
    rfl
  rw [hanswers]
  unfold answerTxt
  apply comes_bind_pure (asksFor_comes hq s.fqsn_expands)
  by_cases hname : ls = s.fqsn.labels ∧ s.service.keyvals.isSome ∧ added.txt = false
  · obtain ⟨hls, hsome, htxt⟩ := hname
    have hadds := txtOnce_eq s added
    have hne : s.txt 255 ≠ [] := by
      obtain ⟨keyvals, hk⟩ := Option.isSome_iff_exists.mp hsome
      simp [NamedService.txt, hk]
    simp only [htxt, Bool.false_eq_true, if_false] at hadds
    simp only [hls, hsome, htxt, decide_true, Bool.not_false, Bool.and_self, if_true, and_self]
    rw [Answering.serve_eq a _ _ hne hadds]
    exact comes_const _
  · have hnot : (decide (ls = s.fqsn.labels) && s.service.keyvals.isSome && !added.txt) = false := by
      rw [Bool.and_assoc]
      simpa using hname
    simp only [hname, hnot, Bool.false_eq_true, if_false, Answering.serve_nil]
    exact comes_const _

theorem comes_reply_handing {α β γ : Type} {f : Nat → Reply β} {g : Nat → β → Reply γ} {x : Reply α} {k : α → β}
    {h : α → Reply γ} (hf : Comes f (x >>= fun a => pure (k a))) (hg : ∀ a, Comes (fun fuel => g fuel (k a)) (h a)) :
    Comes (fun fuel => f fuel >>= g fuel) (x >>= h) := by
  refine (hf.apply_iff (F := fun fuel y => y >>= g fuel)).mpr ?_
  match x with
  | none => exact comes_const _
  | some (.error tx) => exact comes_const _
  | some (.ok a) => exact hg a

theorem comes_reply_bind {α β : Type} {f : Nat → Reply α} {g : Nat → α → Reply β} {x : Reply α} {h : α → Reply β}
    (hf : Comes f x) (hg : ∀ a, Comes (fun fuel => g fuel a) (h a)) :
    Comes (fun fuel => f fuel >>= g fuel) (x >>= h) := by
  rw [← bind_pure x] at hf
  exact comes_reply_handing hf hg

theorem isEmpty_append {α : Type} (xs ys : List α) : (!(xs ++ ys).isEmpty) = (!xs.isEmpty || !ys.isEmpty) := by
  cases xs with
  | nil => simp
  | cons x xs => rfl

theorem overServices_comes (n : NamedResponder) {x : Labels × Nat}
    {answer : Nat → Service → Answering → Added → Reply (Answering × Added)}
    (h : ∀ (s : NamedService) (a : Answering) (added : Added),
      Comes (fun fuel => answer fuel s.service a added) (a.serve (s.answers n.fqdn x added)))
    (ss : List (NamedService × Added)) (a : Answering) :
    Comes (fun fuel => overServices (answer fuel) (services ss) a)
      (a.take (n.served x ss) false (!(n.served x ss).isEmpty) >>= fun a => pure (a, services (n.noted x ss))) := by
  induction ss generalizing a with
  | nil =>
    show Comes (fun _ => pure (a, [])) (a.take [] false false >>= fun a => pure (a, []))
    rw [Answering.take_nil, pure_bind]
    exact comes_const _
  | cons y ss ih =>
    obtain ⟨s, added⟩ := y
    have hstep := comes_reply_bind (h s a added) (fun y => comes_reply_bind (ih y.1) (fun z =>
      comes_const (pure (z.1, (s.service, y.2) :: z.2) : Reply (Answering × List (Service × Added)))))
    have hserved : n.served x ((s, added) :: ss) = (s.answers n.fqdn x added).1 ++ n.served x ss := rfl
    have hlimit : (a.take (n.served x ((s, added) :: ss)) false (!(n.served x ((s, added) :: ss)).isEmpty) >>= fun a =>
          pure (a, services (n.noted x ((s, added) :: ss)))) =
        a.serve (s.answers n.fqdn x added) >>= fun y => y.1.take (n.served x ss) false (!(n.served x ss).isEmpty) >>=
          fun a => pure (a, (s.service, y.2) :: services (n.noted x ss)) := by
      rw [hserved, isEmpty_append, ← Bool.or_self false, ← Answering.take_take]
      simp only [Answering.serve, bind_assoc, pure_bind, Bool.or_self]
      rfl
    rw [hlimit]
    simp only [bind_assoc, pure_bind] at hstep
    exact hstep

theorem answerServices_comes (n : NamedResponder) (hq : Expands (.packet rx.data) q.qname ls)
    (ss : List (NamedService × Added))
    (a : Answering) :
    Comes (fun fuel => answerServices fuel n.responder rx q (services ss) a)
      (a.take (n.served (ls, q.qtype) ss) false (!(n.served (ls, q.qtype) ss).isEmpty) >>= fun a =>
        pure (a, services (n.noted (ls, q.qtype) ss))) := by
  unfold answerServices
  by_cases hptr : q.qtype = tAny ∨ q.qtype = tPtr
  · simp only [if_pos hptr]
    exact overServices_comes n (fun _ => answerPtr_comes hq hptr) ss a
  · by_cases hsrv : q.qtype = tSrv
    · simp only [if_neg hptr, if_pos hsrv]
      exact overServices_comes n (fun _ => answerSrv_comes hq hsrv) ss a
    · by_cases htxt : q.qtype = tTxt
      · simp only [if_neg hptr, if_neg hsrv, if_pos htxt]
        exact overServices_comes n (fun _ => answerTxt_comes hq htxt) ss a
      · have hanswers : ∀ (s : NamedService) (added : Added), s.answers n.fqdn (ls, q.qtype) added = ([], added) := by
          intro s added
          rw [NamedService.answers, if_neg hptr, if_neg hsrv, if_neg htxt]
        have hserved : n.served (ls, q.qtype) ss = [] := by
          apply flatMap_eq_nil_iff.mpr
          intro x _
          rw [hanswers]
        have hnoted : n.noted (ls, q.qtype) ss = ss := by
          simp [NamedResponder.noted, hanswers]
        simp only [if_neg hptr, if_neg hsrv, if_neg htxt, hserved, hnoted, isEmpty_nil, Bool.not_true,
          Answering.take_nil,
          pure_bind]
        exact comes_const _

def Asks (rx : Message) (q : Question) (x : Labels × Nat) : Prop :=
  Expands (.packet rx.data) q.qname x.1 ∧ q.qtype = x.2

theorem answerQuestions_comes (n : NamedResponder) {qs : List Question} {asked : List (Labels × Nat)}
    (hqs : Forall₂ (Asks rx) qs asked) (ss : List (NamedService × Added)) (a : Answering) :
    Comes (fun fuel => answerQuestions fuel n.responder rx qs (services ss) a)
      (a.take (n.respond asked ss).1 (n.respond asked ss).2.1 (n.respond asked ss).2.2) := by
  induction hqs generalizing ss a with
  | nil =>
    show Comes (fun _ => pure a) (a.take [] false false)
    rw [Answering.take_nil]
    exact comes_const _
  | @cons q x qs asked hq _ ih =>
    obtain ⟨ls, type⟩ := x
    obtain ⟨hname, rfl⟩ := hq
    have hlimit : a.take (n.respond ((ls, q.qtype) :: asked) ss).1 (n.respond ((ls, q.qtype) :: asked) ss).2.1
          (n.respond ((ls, q.qtype) :: asked) ss).2.2 =
        a.take (n.hostAnswers (ls, q.qtype)) (!(n.hostAnswers (ls, q.qtype)).isEmpty) false >>= fun a =>
          a.take (n.reverseAnswers (ls, q.qtype)) (!(n.reverseAnswers (ls, q.qtype)).isEmpty) false >>= fun a =>
            a.take (n.served (ls, q.qtype) ss) false (!(n.served (ls, q.qtype) ss).isEmpty) >>= fun a =>
              a.take (n.respond asked (n.noted (ls, q.qtype) ss)).1 (n.respond asked (n.noted (ls, q.qtype) ss)).2.1
                (n.respond asked (n.noted (ls, q.qtype) ss)).2.2 := by
      simp only [Answering.take_take, NamedResponder.respond, NamedResponder.ownAnswers, isEmpty_append, append_assoc,
        Bool.or_assoc, Bool.false_or]
    rw [hlimit]
    simp only [answerQuestions]
    apply comes_reply_bind (answerHost_comes n hname a)
    intro a
    apply comes_reply_bind (answerReverse_comes n hname a)
    intro a
    exact comes_reply_handing (answerServices_comes n hname ss a) (ih (n.noted (ls, q.qtype) ss))

end comes

section set
variable {n : NamedResponder} {s : NamedService} {fqdn : WireName} {q q' : Labels × Nat}
  {e : Entry WireName} {added : Added}
  {asked : List (Labels × Nat)} {ss : List (NamedService × Added)}

theorem mem_ownAnswers : e ∈ n.ownAnswers q ↔ n.Due q e := by
  simp only [NamedResponder.ownAnswers, NamedResponder.hostAnswers, NamedResponder.reverseAnswers, mem_append,
    mem_ite_nil_right, mem_singleton]
  constructor
  · rintro (⟨⟨htype, hname⟩, rfl⟩ | ⟨⟨htype, hname⟩, rfl⟩)
    · exact .address htype hname
    · exact .reverse htype hname
  · rintro (⟨htype, hname⟩ | ⟨htype, hname⟩)
    · exact .inl ⟨⟨htype, hname⟩, rfl⟩
    · exact .inr ⟨⟨htype, hname⟩, rfl⟩

def Noted (fqdn : WireName) (x : NamedService × Added) (e : Entry WireName) : Prop :=
  (x.2.srv = true ∧ e = x.1.srv fqdn 255) ∨ (x.2.txt = true ∧ e ∈ x.1.txt 255)

theorem NamedService.txt_none (h : s.service.keyvals.isSome = false) (ttl : Nat) : s.txt ttl = [] := by
  cases hk : s.service.keyvals with
  | none => simp [NamedService.txt, hk]
  | some keyvals =>
    rw [hk] at h
    cases h

theorem NamedService.mem_announced {ttl : Nat} :
    e ∈ s.announced fqdn ttl ↔ e = s.srv fqdn ttl ∨ e = s.pointer ttl ∨ e ∈ s.txt ttl := by
  simp [NamedService.announced]

theorem NamedService.Due.mem (h : s.Due fqdn q e) : e ∈ s.announced fqdn 255 := by
  cases h with
  | all _ _ he => exact he
  | srv _ _ => exact NamedService.mem_announced.mpr (.inl rfl)
  | txt _ _ he => exact NamedService.mem_announced.mpr (.inr (.inr he))

/-- What the records of a service for a question must be, given what is there already. -/
structure Answers (fqdn : WireName) (q : Labels × Nat) (s : NamedService) (added : Added) (es : List (Entry WireName))
    (added' : Added) : Prop where
  due : ∀ e ∈ es, s.Due fqdn q e
  there : ∀ e, s.Due fqdn q e → e ∈ es ∨ Noted fqdn (s, added) e
  noted : ∀ e, Noted fqdn (s, added') e → e ∈ es ∨ Noted fqdn (s, added) e

theorem answers_none (h : ∀ e, s.Due fqdn q e → Noted fqdn (s, added) e) : Answers fqdn q s added [] added where
  due := nofun
  there := fun e he => .inr (h e he)
  noted := fun _ he => .inr he

theorem answers_all (hptr : q.2 = tAny ∨ q.2 = tPtr) (hname : q.1 = s.ptr.labels ∨ q.1 = s.fqsn.labels) :
    Answers fqdn q s added ((if added.srv then [] else [s.srv fqdn 255]) ++ [s.pointer 255] ++
      (if added.txt then [] else s.txt 255)) { srv := true, txt := added.txt || s.service.keyvals.isSome } := by
  have hall : ∀ e ∈ s.announced fqdn 255, e ∈ (if added.srv then [] else [s.srv fqdn 255]) ++ [s.pointer 255] ++
      (if added.txt then [] else s.txt 255) ∨ Noted fqdn (s, added) e := by
    intro e he
    rcases NamedService.mem_announced.mp he with rfl | rfl | he
    · cases hs : added.srv with
      | true => exact .inr (.inl ⟨hs, rfl⟩)
      | false => exact .inl (by simp)
    · exact .inl (by simp)
    · cases ht : added.txt with
      | true => exact .inr (.inr ⟨ht, he⟩)
      | false => exact .inl (by simp [he])
  refine ⟨?_, fun e he => hall e he.mem, ?_⟩
  · intro e he
    refine .all hptr hname (NamedService.mem_announced.mpr ?_)
    rcases mem_append.mp he with he | he
    · rcases mem_append.mp he with he | he
      · exact .inl (by simpa using (mem_ite_nil_left.mp he).2)
      · exact .inr (.inl (mem_singleton.mp he))
    · exact .inr (.inr (mem_ite_nil_left.mp he).2)
  · rintro e (⟨-, rfl⟩ | ⟨-, he⟩)
    · exact hall _ (NamedService.mem_announced.mpr (.inl rfl))
    · exact hall e (NamedService.mem_announced.mpr (.inr (.inr he)))

theorem answers_srv (hsrv : q.2 = tSrv) (hname : q.1 = s.fqsn.labels) :
    Answers fqdn q s added [s.srv fqdn 255] { added with srv := true } where
  due := by
    intro e he
    obtain rfl := mem_singleton.mp he
    exact .srv hsrv hname
  there := by
    intro e he
    cases he with
    | all hptr _ _ =>
      rw [hsrv] at hptr
      exact absurd hptr (by decide)
    | srv _ _ => exact .inl (.head _)
    | txt htxt _ _ =>
      rw [hsrv] at htxt
      exact absurd htxt (by decide)
  noted := by
    rintro e (⟨-, rfl⟩ | ⟨ht, he⟩)
    · exact .inl (.head _)
    · exact .inr (.inr ⟨ht, he⟩)

theorem answers_txt (htxt : q.2 = tTxt) (hname : q.1 = s.fqsn.labels) :
    Answers fqdn q s added (s.txt 255) { added with txt := true } where
  due := fun e he => .txt htxt hname he
  there := by
    intro e he
    cases he with
    | all hptr _ _ =>
      rw [htxt] at hptr
      exact absurd hptr (by decide)
    | srv hsrv _ =>
      rw [htxt] at hsrv
      exact absurd hsrv (by decide)
    | txt _ _ he => exact .inl he
  noted := by
    rintro e (⟨hs, rfl⟩ | ⟨-, he⟩)
    · exact .inr (.inl ⟨hs, rfl⟩)
    · exact .inl he

theorem answers_spec (fqdn : WireName) (q : Labels × Nat) (s : NamedService) (added : Added) :
    Answers fqdn q s added (s.answers fqdn q added).1 (s.answers fqdn q added).2 := by
  unfold NamedService.answers
  split
  · next hptr =>
    split
    · next hname => exact answers_all hptr hname
    · next hname =>
      apply answers_none
      intro e he
      cases he with
      | all _ h _ => exact absurd h hname
      | srv _ h => exact absurd (.inr h) hname
      | txt _ h _ => exact absurd (.inr h) hname
  · next hptr =>
    split
    · next hsrv =>
      split
      · next hname => exact answers_srv hsrv hname.1
      · next hname =>
        apply answers_none
        intro e he
        cases he with
        | all h _ _ => exact absurd h hptr
        | srv _ h => exact .inl ⟨by simpa [h] using hname, rfl⟩
        | txt h _ _ =>
          rw [hsrv] at h
          exact absurd h (by decide)
    · next hsrv =>
      split
      · next htxt =>
        split
        · next hname => exact answers_txt htxt hname.1
        · next hname =>
          apply answers_none
          intro e he
          cases he with
          | all h _ _ => exact absurd h hptr
          | srv h _ => exact absurd h hsrv
          | txt _ h he =>
            cases hk : s.service.keyvals.isSome with
            | false =>
              rw [NamedService.txt_none hk] at he
              cases he
            | true => exact .inr ⟨by simpa [h, hk] using hname, he⟩
      · next htxt =>
        apply answers_none
        intro e he
        cases he with
        | all h _ _ => exact absurd h hptr
        | srv h _ => exact absurd h hsrv
        | txt h _ _ => exact absurd h htxt

def NamedResponder.Asked (n : NamedResponder) (asked : List (Labels × Nat)) (ss : List (NamedService × Added))
    (e : Entry WireName) : Prop :=
  ∃ q ∈ asked, n.Due q e ∨ ∃ x ∈ ss, x.1.Due n.fqdn q e

theorem mem_noted {x : NamedService × Added} :
    x ∈ n.noted q ss ↔ ∃ y ∈ ss, x = (y.1, (y.1.answers n.fqdn q y.2).2) := by
  simp only [NamedResponder.noted, List.mem_map, eq_comm]

theorem due_noted : (∃ x ∈ n.noted q ss, x.1.Due n.fqdn q' e) ↔ ∃ x ∈ ss, x.1.Due n.fqdn q' e := by
  constructor
  · rintro ⟨x, hx, hdue⟩
    obtain ⟨y, hy, rfl⟩ := mem_noted.mp hx
    exact ⟨y, hy, hdue⟩
  · rintro ⟨y, hy, hdue⟩
    exact ⟨_, mem_noted.mpr ⟨y, hy, rfl⟩, hdue⟩

theorem asked_of_mem_respond (h : e ∈ (n.respond asked ss).1) : n.Asked asked ss e := by
  induction asked generalizing ss with
  | nil => cases h
  | cons q asked ih =>
    rcases mem_append.mp h with h | h
    · refine ⟨q, .head _, ?_⟩
      rcases mem_append.mp h with h | h
      · exact .inl (mem_ownAnswers.mp h)
      · obtain ⟨x, hx, he⟩ := mem_flatMap.mp h
        exact .inr ⟨x, hx, (answers_spec n.fqdn q x.1 x.2).due e he⟩
    · obtain ⟨q', hq', hdue⟩ := ih h
      refine ⟨q', .tail _ hq', hdue.imp_right ?_⟩
      exact due_noted.mp

theorem mem_respond_of_asked (h : n.Asked asked ss e) : e ∈ (n.respond asked ss).1 ∨ ∃ x ∈ ss, Noted n.fqdn x e := by
  induction asked generalizing ss with
  | nil =>
    obtain ⟨q, hq, -⟩ := h
    cases hq
  | cons q asked ih =>
    -- a record that is there after the first question was added for it, or was there before
    have hserved : ∀ x ∈ ss, e ∈ (x.1.answers n.fqdn q x.2).1 → e ∈ (n.respond (q :: asked) ss).1 := by
      intro x hx he
      exact mem_append_left _ (mem_append_right _ (mem_flatMap.mpr ⟨x, hx, he⟩))
    obtain ⟨q', hq', hdue⟩ := h
    rcases mem_cons.mp hq' with rfl | hq'
    · rcases hdue with hown | ⟨x, hx, hdue⟩
      · exact .inl (mem_append_left _ (mem_append_left _ (mem_ownAnswers.mpr hown)))
      · rcases (answers_spec n.fqdn q' x.1 x.2).there e hdue with he | he
        · exact .inl (hserved x hx he)
        · exact .inr ⟨x, hx, he⟩
    · rcases ih ⟨q', hq', hdue.imp_right due_noted.mpr⟩ with he | ⟨x', hx', he⟩
      · exact .inl (mem_append_right _ he)
      · obtain ⟨x, hx, rfl⟩ := mem_noted.mp hx'
        rcases (answers_spec n.fqdn q x.1 x.2).noted e he with he | he
        · exact .inl (hserved x hx he)
        · exact .inr ⟨x, hx, he⟩

theorem mem_responses : e ∈ (n.responses asked).1 ↔ ∃ q ∈ asked, n.Due q e ∨ ∃ s ∈ n.services, s.Due n.fqdn q e := by
  have hstart : n.Asked asked (n.services.map (·, {})) e ↔ ∃ q ∈ asked, n.Due q e ∨ ∃ s ∈ n.services,
    s.Due n.fqdn q e := by
    simp [NamedResponder.Asked]
  rw [← hstart]
  constructor
  · exact asked_of_mem_respond
  · intro h
    rcases mem_respond_of_asked h with he | ⟨x, hx, he⟩
    · exact he
    · obtain ⟨s, -, rfl⟩ := List.mem_map.mp hx
      rcases he with ⟨h, -⟩ | ⟨h, -⟩
      · cases h
      · cases h

end set

section response
variable {n : NamedResponder} {rx : Message} {asked : List (Labels × Nat)}
  {s : NamedService} {e : Entry WireName}

def replyBits (send delay : Bool) : Int := (if send then 1 else 0) + (if delay then 2 else 0)

def replyHeader (rx : Message) (count : Nat) : Header :=
  { id := slice rx.data 0 2, flags := responseFlags, answers := count }

theorem holds_replyInit (rx tx : Message) :
    Message.Holds { mdnsResponseInit tx with data := writeAt (mdnsResponseInit tx).data 0 (slice rx.data
      0 2) } (replyHeader rx 0) [] where
  id := slice_length _ _ _
  flags := rfl
  cur := rfl
  mend := rfl
  data := by
    obtain ⟨front, back, heq, hf⟩ := (holds_mdnsResponseInit tx).data
    obtain rfl := eq_nil_of_length_eq_zero hf
    refine ⟨[], back, ?_, rfl⟩
    show writeAt (mdnsResponseInit tx).data 0 (slice rx.data 0 2) = _
    have hid := slice_length rx.data 0 2
    rw [heq, replyHeader]
    match slice rx.data 0 2, hid with
    | [b, c], _ => rfl

theorem appendsAll_records {es : List (Entry WireName)} (httl : ∀ e ∈ es, e.ttl ≠ uint32Max) :
    AppendsAll ((es.map Entry.proposed).flatMap Entry.answerAdds) (0, es.length,
      0) ((es.map Entry.proposed).flatMap Entry.bytes) := by
  have hall := @AppendsAll.flatMap (0, 1, 0) (Entry Owner) (es.map Entry.proposed) Entry.answerAdds Entry.bytes (by
    intro x hx
    obtain ⟨e, he, rfl⟩ := List.mem_map.mp hx
    exact appends_answer (httl e he))
  simpa using hall

theorem announced_ttl {fqdn : WireName} {ttl : Nat} (he : e ∈ s.announced fqdn ttl) :
    e.ttl = ttl := by
  rcases NamedService.mem_announced.mp he with rfl | rfl | he
  · rfl
  · rfl
  · obtain ⟨keyvals, -, rfl⟩ := NamedService.of_mem_txt he
    rfl

theorem responses_ttl {e : Entry WireName} (he : e ∈ (n.responses asked).1) : e.ttl ≠ uint32Max := by
  have httl : e.ttl = 255 := by
    obtain ⟨q, -, hown | ⟨s, -, hdue⟩⟩ := mem_responses.mp he
    · cases hown with
      | address _ _ => rfl
      | reverse _ _ => rfl
    · exact announced_ttl hdue.mem
  rw [httl]
  decide

/-- The message that `prepare_response` starts from. -/
def replyInit (rx tx : Message) : Message :=
  { mdnsResponseInit tx with data := writeAt (mdnsResponseInit tx).data 0 (slice rx.data 0 2) }

/-- The end of `prepare_response`. -/
def replyEnd : Option (Except Message Answering) → Option (Message × Int)
  | none => none
  | some (.error tx) => some (tx, rsError)
  | some (.ok a) => some (a.tx, a.ret)

theorem prepareResponse_take (n : NamedResponder) (hqr : rx.qr = false) (hqs : Forall₂ (Asks rx) rx.questions asked)
    (tx : Message) :
    Comes (fun fuel => prepareResponse fuel n.responder rx tx) (replyEnd
      (Answering.take { tx := replyInit rx tx } (n.responses asked).1 (n.responses asked).2.1
        (n.responses asked).2.2).run) := by
  obtain ⟨fuel, hcomes⟩ := answerQuestions_comes n hqs (n.services.map (·, {})) { tx := replyInit rx tx }
  have hservices : services (n.services.map (·, {})) = n.responder.services.map (·, {}) := by
    rw [← n.services_eq, services, List.map_map, List.map_map]
    rfl
  rw [hservices] at hcomes
  refine ⟨fuel, ?_⟩
  intro fuel' hle
  show prepareResponse fuel' n.responder rx tx = _
  unfold prepareResponse
  rw [if_neg (by simp [hqr])]
  exact congrArg (fun x : Reply Answering => replyEnd x.run) (hcomes fuel' hle)

theorem prepareResponse_comes (n : NamedResponder) (hqr : rx.qr = false) (hqs : Forall₂ (Asks rx) rx.questions asked)
    (tx : Message) :
    ∃ tx' ret, Comes (fun fuel => prepareResponse fuel n.responder rx tx) (some (tx', ret)) ∧
      (headerSize + bytesOf (n.responses asked).1 ≤ dataMax →
        ret = replyBits (n.responses asked).2.1 (n.responses asked).2.2 ∧
          tx'.Holds (replyHeader rx (n.responses asked).1.length)
            (((n.responses asked).1.map Entry.proposed).flatMap Entry.bytes)) ∧
      (dataMax < headerSize + bytesOf (n.responses asked).1 → ret = rsError) := by
  have hinit : (replyInit rx tx).Holds (replyHeader rx 0) [] := holds_replyInit rx tx
  have hcur : (replyInit rx tx).cur = headerSize := hinit.cur
  have htake := prepareResponse_take n hqr hqs tx
  obtain ⟨hroom, hfull⟩ :=
    (appendsAll_records (fun e he => @responses_ttl n asked e he)).addAll hinit (by rw [hcur]; decide)
  rw [hcur] at hroom hfull
  by_cases hfits : headerSize + bytesOf (n.responses asked).1 ≤ dataMax
  · obtain ⟨m', hadd, hm'⟩ := hroom hfits
    refine ⟨m', replyBits (n.responses asked).2.1 (n.responses asked).2.2, ?_, ?_, fun h => absurd hfits (by omega)⟩
    · simp only [Answering.take, Answering.adds, hadd] at htake
      exact htake
    · intro _
      exact ⟨rfl, by simpa [Header.plus, replyHeader] using hm'⟩
  · have hfail := hfull (Nat.lt_of_not_le hfits)
    cases hadd : addAll (((n.responses asked).1.map Entry.proposed).flatMap Entry.answerAdds) (replyInit rx tx) with
    | mk m' ok =>
      rw [hadd] at hfail
      cases hfail
      refine ⟨m', rsError, ?_, fun h => absurd h hfits, fun _ => rfl⟩
      simp only [Answering.take, Answering.adds, hadd] at htake
      exact htake

end response

section steady
variable {α β : Type}

/-- A part of `prepare_response` that does not change once there is enough fuel for it. -/
def Steady (f : Nat → Reply α) : Prop := Stable none (fun fuel => (f fuel).run)

theorem steady_const (x : Reply α) : Steady (fun _ => x) := stable_const _ _

theorem steady_bind {f : Nat → Reply α} {g : Nat → α → Reply β} (hf : Steady f)
    (hg : ∀ a, Steady (fun fuel => g fuel a)) :
    Steady (fun fuel => f fuel >>= g fuel) := by
  refine stable_bind_option hf ?_
  intro x
  cases x with
  | ok a => exact hg a
  | error e => exact stable_const _ _

variable (r : Responder) (rx : Message) (q : Question)

theorem steady_asksFor (name : Mem) (off : Nat) : Steady (fun fuel => asksFor fuel rx q name off) := by
  intro fuel h fuel' hle
  have hback : dnameCmp fuel (.packet rx.data) q.qname (.plain name) off ≠ none := by
    intro hnone
    apply h
    show asksFor fuel rx q name off = _
    unfold asksFor
    rw [hnone]
    rfl
  have hsame : dnameCmp fuel' (.packet rx.data) q.qname (.plain name) off =
    dnameCmp fuel (.packet rx.data) q.qname (.plain name) off :=
    stable_dnameCmp _ _ _ _ fuel hback fuel' hle
  show asksFor fuel' rx q name off = asksFor fuel rx q name off
  unfold asksFor
  rw [hsame]

theorem steady_answerHost (a : Answering) : Steady (fun fuel => answerHost fuel r rx q a) := by
  unfold answerHost
  split
  · refine steady_bind (steady_asksFor rx q r.fqdn 0) ?_
    intro b
    exact steady_const _
  · exact steady_const _

theorem steady_answerReverse (a : Answering) : Steady (fun fuel => answerReverse fuel r rx q a) := by
  unfold answerReverse
  split
  · refine steady_bind (steady_asksFor rx q r.inAddrArpa 0) ?_
    intro b
    exact steady_const _
  · exact steady_const _

theorem steady_answerPtr (s : Service) (a : Answering) (added : Added) :
    Steady (fun fuel => answerPtr fuel r rx q s a added) := by
  refine steady_bind (steady_asksFor rx q s.fqsn s.ptrname) ?_
  intro isType
  cases isType with
  | true => exact steady_const _
  | false =>
    refine steady_bind (steady_asksFor rx q s.fqsn 0) ?_
    intro isName
    exact steady_const _

theorem steady_answerSrv (s : Service) (a : Answering) (added : Added) :
    Steady (fun fuel => answerSrv fuel r rx q s a added) := by
  refine steady_bind (steady_asksFor rx q s.fqsn 0) ?_
  intro b
  exact steady_const _

theorem steady_answerTxt (s : Service) (a : Answering) (added : Added) :
    Steady (fun fuel => answerTxt fuel rx q s a added) := by
  refine steady_bind (steady_asksFor rx q s.fqsn 0) ?_
  intro b
  exact steady_const _

theorem steady_overServices {answer : Nat → Service → Answering → Added → Reply (Answering × Added)}
    (h : ∀ s a added, Steady (fun fuel => answer fuel s a added)) (ss : List (Service × Added)) (a : Answering) :
    Steady (fun fuel => overServices (answer fuel) ss a) := by
  induction ss generalizing a with
  | nil => exact steady_const _
  | cons x ss ih =>
    refine steady_bind (h x.1 a x.2) ?_
    intro y
    refine steady_bind (ih y.1) ?_
    intro z
    exact steady_const _

theorem steady_answerServices (ss : List (Service × Added)) (a : Answering) :
    Steady (fun fuel => answerServices fuel r rx q ss a) := by
  unfold answerServices
  split
  · exact steady_overServices (steady_answerPtr r rx q) ss a
  · split
    · exact steady_overServices (steady_answerSrv r rx q) ss a
    · split
      · exact steady_overServices (steady_answerTxt rx q) ss a
      · exact steady_const _

theorem steady_answerQuestions (qs : List Question) (ss : List (Service × Added)) (a : Answering) :
    Steady (fun fuel => answerQuestions fuel r rx qs ss a) := by
  induction qs generalizing ss a with
  | nil => exact steady_const _
  | cons q qs ih =>
    refine steady_bind (steady_answerHost r rx q a) ?_
    intro a
    refine steady_bind (steady_answerReverse r rx q a) ?_
    intro a
    refine steady_bind (steady_answerServices r rx q ss a) ?_
    intro y
    exact ih y.2 y.1

theorem stable_prepareResponse (tx : Message) : Stable none (fun fuel => prepareResponse fuel r rx tx) := by
  unfold prepareResponse
  split
  · exact stable_const _ _
  · exact (steady_answerQuestions r rx _ _ _).comp (F := replyEnd) rfl

end steady

end Mdns
