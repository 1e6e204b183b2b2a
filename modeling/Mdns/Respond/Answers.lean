import Mdns.Respond.Order
import Mdns.Respond.Response

/-!
# Which records a response has

A response has exactly the records that the questions ask for. Nothing keeps the address, the
reverse pointer or the pointer to a service from being added once for each question that asks for
them.
-/
namespace Mdns
open Lib List

section questions
variable {rx : Message}

theorem Parsed.asks (h : Parsed rx) : ∃ asked, Forall₂ (Asks rx) rx.questions asked := by
  have hall : ∀ q ∈ rx.questions, ∃ ls, Expands (.packet rx.data) q.qname ls := by
    intro q hq
    obtain ⟨fuel, data, mlen, hf⟩ := h
    obtain ⟨hscan, hends⟩ := mdnsParseMessage_ok_iff.mp ⟨fuel, hf⟩
    rw [(scanPacket_data hscan).2]
    exact (hends _ ((scanPacket_covers hscan).1 q hq (mem_cons_self))).expands
  generalize rx.questions = qs at hall
  induction qs with
  | nil => exact ⟨[], .nil⟩
  | cons q qs ih =>
    obtain ⟨ls, hls⟩ := hall q (.head _)
    obtain ⟨asked, hasked⟩ := ih (fun q' hq' => hall q' (.tail _ hq'))
    exact ⟨(ls, q.qtype) :: asked, .cons ⟨hls, rfl⟩ hasked⟩

end questions

section kinds
variable {n : NamedResponder} {s s' : NamedService} {e : Entry WireName} {q : Labels × Nat}
  {fqdn : WireName} {ttl : Nat}

/-- The name that a record is about: what it points to, if it is a pointer, or its owner. -/
def Entry.subject (e : Entry WireName) : Labels :=
  match e.data with
  | .name w => w.labels
  | _ => e.owner.labels

theorem subject_announced (h : e ∈ s.announced fqdn ttl) : e.subject = s.fqsn.labels := by
  rcases NamedService.mem_announced.mp h with rfl | rfl | h
  · rfl
  · rfl
  · obtain ⟨keyvals, -, rfl⟩ := NamedService.of_mem_txt h
    rfl

theorem subject_due (h : n.Due q e) : e.subject = n.fqdn.labels := by
  cases h with
  | address _ _ => rfl
  | reverse _ _ => rfl

theorem NamedResponder.Proper.fqsn_ne (h : n.Proper) (hs : s ∈ n.services) : s.fqsn.labels ≠ n.fqdn.labels := by
  obtain ⟨l, hl⟩ := h.fqdn
  obtain ⟨⟨l', hl'⟩, -⟩ := h.services s hs
  rw [hl, hl', Service.suffix]
  intro heq
  have hlen := congrArg List.length heq
  simp at hlen

theorem NamedResponder.Proper.apart (h : n.Proper) (hs : s ∈ n.services) (he : e ∈ s.announced fqdn ttl) :
    e.subject ≠ n.fqdn.labels := by
  rw [subject_announced he]
  exact h.fqsn_ne hs

end kinds

section complete
variable {n : NamedResponder} {e : Entry WireName} {asked : List (Labels × Nat)}
  {ss : List (NamedService × Added)} {rx tx : Message}

theorem respond_send : (n.respond asked ss).2.1 = true ↔ ∃ q ∈ asked, ∃ e, n.Due q e := by
  induction asked generalizing ss with
  | nil =>
    show false = true ↔ _
    simp
  | cons q asked ih =>
    show (!(n.ownAnswers q).isEmpty || (n.respond asked (n.noted q ss)).2.1) = true ↔ _
    have hown : (!(n.ownAnswers q).isEmpty) = true ↔ ∃ e, n.Due q e := by
      simp only [← mem_ownAnswers, Bool.not_eq_true', isEmpty_eq_false_iff_exists_mem]
    rw [Bool.or_eq_true, ih, hown]
    simp

theorem respond_delay :
    ((n.respond asked ss).2.2 = true → ∃ x ∈ ss, ∃ e ∈ (n.respond asked ss).1, e ∈ x.1.announced n.fqdn 255) ∧
    ∀ e ∈ (n.respond asked ss).1, (∃ q ∈ asked, n.Due q e) ∨ (n.respond asked ss).2.2 = true := by
  induction asked generalizing ss with
  | nil =>
    exact ⟨fun h => absurd h (by simp [NamedResponder.respond]),
      fun e he => absurd he (by simp [NamedResponder.respond])⟩
  | cons q asked ih =>
    obtain ⟨ih1, ih2⟩ := @ih (n.noted q ss)
    have hbit : (n.respond (q :: asked) ss).2.2 =
      (!(n.served q ss).isEmpty || (n.respond asked (n.noted q ss)).2.2) := rfl
    have hlist : (n.respond (q :: asked) ss).1 =
      n.ownAnswers q ++ n.served q ss ++ (n.respond asked (n.noted q ss)).1 := rfl
    rw [hbit, hlist, Bool.or_eq_true]
    constructor
    · rintro (h | h)
      · rw [Bool.not_eq_true', isEmpty_eq_false_iff_exists_mem] at h
        obtain ⟨e, he⟩ := h
        obtain ⟨x, hx, he'⟩ := mem_flatMap.mp he
        exact ⟨x, hx, e, mem_append_left _ (mem_append_right _ he), ((answers_spec n.fqdn q x.1 x.2).due e he').mem⟩
      · obtain ⟨x, hx, e, he, hann⟩ := ih1 h
        obtain ⟨y, hy, rfl⟩ := mem_noted.mp hx
        exact ⟨y, hy, e, mem_append_right _ he, hann⟩
    · intro e he
      rcases mem_append.mp he with he | he
      · rcases mem_append.mp he with he | he
        · exact .inl ⟨q, .head _, mem_ownAnswers.mp he⟩
        · refine .inr (.inl ?_)
          rw [Bool.not_eq_true', isEmpty_eq_false_iff_exists_mem]
          exact ⟨e, he⟩
      · rcases ih2 e he with ⟨q', hq', hdue⟩ | hdelay
        · exact .inl ⟨q', .tail _ hq', hdue⟩
        · exact .inr (.inr hdelay)

def NamedResponder.AskedFor (n : NamedResponder) (rx : Message) (e : Entry WireName) : Prop :=
  ∃ q ∈ rx.questions, ∃ ls, Expands (.packet rx.data) q.qname ls ∧
    (n.Due (ls, q.qtype) e ∨ ∃ s ∈ n.services, s.Due n.fqdn (ls, q.qtype) e)

theorem askedFor_iff (h : Forall₂ (Asks rx) rx.questions asked) : n.AskedFor rx e ↔ e ∈ (n.responses asked).1 := by
  rw [mem_responses]
  unfold NamedResponder.AskedFor
  generalize rx.questions = qs at h
  induction h with
  | nil => simp
  | @cons q x qs asked hq _ ih =>
    obtain ⟨ls, type⟩ := x
    obtain ⟨hname, rfl⟩ := hq
    rw [exists_mem_cons_iff, exists_mem_cons_iff, ih]
    refine or_congr ?_ Iff.rfl
    constructor
    · rintro ⟨ls', hls', hdue⟩
      obtain rfl := hls'.unique hname
      exact hdue
    · intro hdue
      exact ⟨ls, hname, hdue⟩

/-- What a response must be: the records that are asked for, behind the id of the query, and the bits
of what was added. -/
structure Answered (n : NamedResponder) (rx tx : Message) (ret : Int) (es : List (Entry WireName)) : Prop where
  built : tx.Holds (replyHeader rx es.length) ((es.map Entry.proposed).flatMap Entry.bytes)
  records : ∀ e, e ∈ es ↔ n.AskedFor rx e
  bits : ∃ send delay, ret = replyBits send delay ∧
    (send = true ↔ n.address 255 ∈ es ∨ n.reverse 255 ∈ es) ∧
    (delay = true ↔ ∃ s ∈ n.services, ∃ e ∈ es, e ∈ s.announced n.fqdn 255)

/-- `prepare_response` answers a query with the records that are asked for, or fails, and does not touch
`tx` for a response. -/
theorem prepareResponse_answers (r : Responder) (hr : r.WellNamed) (rx tx : Message) (hrx : Parsed rx) :
    ∃ tx' ret, Comes (fun fuel => prepareResponse fuel r rx tx) (some (tx', ret)) ∧
      (rx.qr = true → tx' = tx ∧ ret = rsNoSend) ∧
      (rx.qr = false → ret ≠ rsError → ∃ es, Answered (r.wire hr) rx tx' ret es) := by
  cases hqr : rx.qr with
  | true =>
    refine ⟨tx, rsNoSend, ?_, fun _ => ⟨rfl, rfl⟩, nofun⟩
    simp only [prepareResponse, hqr, if_true]
    exact comes_const _
  | false =>
    obtain ⟨asked, hasked⟩ := hrx.asks
    have hproper := r.wire_proper hr
    obtain ⟨tx', ret, hcomes, hfits, hfull⟩ := prepareResponse_comes (r.wire hr) hqr hasked tx
    refine ⟨tx', ret, hcomes, nofun, ?_⟩
    intro _ hret
    have hroom : headerSize + bytesOf ((r.wire hr).responses asked).1 ≤ dataMax := by
      by_contra h
      exact hret (hfull (Nat.lt_of_not_le h))
    obtain ⟨hbits, hbuilt⟩ := hfits hroom
    refine ⟨((r.wire hr).responses asked).1, hbuilt, fun e => (askedFor_iff hasked).symm, _, _, hbits, ?_, ?_⟩
    · rw [NamedResponder.responses, respond_send]
      constructor
      · rintro ⟨q, hq, e, hdue⟩
        have hmem : e ∈ ((r.wire hr).responses asked).1 := mem_responses.mpr ⟨q, hq, .inl hdue⟩
        cases hdue with
        | address _ _ => exact .inl hmem
        | reverse _ _ => exact .inr hmem
      · intro hmem
        have hhost : ∃ e ∈ ((r.wire hr).responses asked).1, e.subject = (r.wire hr).fqdn.labels := by
          rcases hmem with hmem | hmem
          · exact ⟨_, hmem, rfl⟩
          · exact ⟨_, hmem, rfl⟩
        obtain ⟨e, he, hsubject⟩ := hhost
        obtain ⟨q, hq, hdue | ⟨s, hs, hdue⟩⟩ := mem_responses.mp he
        · exact ⟨q, hq, e, hdue⟩
        · exact absurd hsubject (hproper.apart hs hdue.mem)
    · constructor
      · intro hdelay
        obtain ⟨x, hx, e, he, hann⟩ := respond_delay.1 hdelay
        obtain ⟨s, hs, rfl⟩ := List.mem_map.mp hx
        exact ⟨s, hs, e, he, hann⟩
      · rintro ⟨s, hs, e, he, hann⟩
        rcases respond_delay.2 e he with ⟨q, -, hdue⟩ | hdelay
        · exact absurd (subject_due hdue) (hproper.apart hs hann)
        · exact hdelay

/-- The host `foo.local` of the runs, with its reverse name. -/
def fooReady : Responder := Responder.named { fooHost with inAddrArpa := ipaddrToInaddrarpa fooHost.myIpaddr }

theorem fooReady_wellNamed : fooReady.WellNamed := by
  have hc : Responder.Configured { fooHost with inAddrArpa := ipaddrToInaddrarpa fooHost.myIpaddr } :=
    ⟨by decide, by decide, length_replicate, by
      intro s hs
      obtain rfl := mem_singleton.mp hs
      exact ⟨by decide, by decide, length_replicate⟩⟩
  exact (naming_named hc.renamable).wellNamed hc.renamable rfl

/-- A query for the services of a type, for one of them and for the address of `foo.local`. -/
def fooQuery : Mem :=
  [0, 7, 0, 0, 0, 3, 0, 0, 0, 0, 0, 0] ++ [3, 119, 101, 98, 5, 95, 104, 116, 116, 112, 4, 95, 116, 99,
    112, 5, 108, 111, 99, 97, 108, 0] ++
    [0, 33, 0, 1] ++ [192, 16, 0, 12, 0, 1] ++ [3, 102, 111, 111, 192, 27, 0, 1, 0, 1]

theorem fooQuery_parsed : ∃ rx, mdnsParseMessage 10 fooQuery fooQuery.length = .ok rx ∧ rx.qr = false ∧
    rx.questions.map (·.qtype) = [tSrv, tPtr, tA] ∧
      (prepareResponse 10 fooReady rx rx).map Prod.snd = some (replyBits true true) := by
  have heval : ((mdnsParseMessage 10 fooQuery fooQuery.length).toOption.any fun rx => decide (rx.qr = false ∧
      rx.questions.map (·.qtype) = [tSrv, tPtr, tA] ∧
      (prepareResponse 10 fooReady rx rx).map Prod.snd = some (replyBits true true))) = true := by decide +kernel
  obtain ⟨rx, hok, heval⟩ := exists_ok heval
  exact ⟨rx, hok, of_decide_eq_true heval⟩

/-- The first question asks for the SRV record, the second adds the pointer, and the third the address. -/
theorem prepareResponse_answers_foo : ∃ rx, mdnsParseMessage 10 fooQuery fooQuery.length = .ok rx ∧
    rx.questions.map (·.qtype) = [tSrv, tPtr, tA] ∧
    ∃ tx' es, Comes (fun fuel => prepareResponse fuel fooReady rx rx) (some (tx', replyBits true true)) ∧
      Answered (fooReady.wire fooReady_wellNamed) rx tx' (replyBits true true) es := by
  obtain ⟨rx, hok, hqr, htypes, heval⟩ := fooQuery_parsed
  obtain ⟨tx', ret, hcomes, -, hquery⟩ := prepareResponse_answers fooReady fooReady_wellNamed rx rx ⟨_, _, _, hok⟩
  obtain ⟨x, hx, hret⟩ := Option.map_eq_some_iff.mp heval
  obtain rfl := Option.some.inj
    (((stable_prepareResponse fooReady rx rx).returns_iff hcomes (Option.some_ne_none x)).mp ⟨10, hx⟩)
  obtain rfl : ret = replyBits true true := hret
  obtain ⟨es, hes⟩ := hquery hqr (by decide)
  exact ⟨rx, hok, htypes, tx', es, hcomes, hes⟩

end complete

section once
variable {n : NamedResponder} {fqdn : WireName} {s : NamedService} {x y : NamedService × Added}
  {e : Entry WireName} {q q' : Labels × Nat}
  {asked : List (Labels × Nat)} {ss : List (NamedService × Added)} {added : Added}

def NamedResponder.asksAddress (n : NamedResponder) (q : Labels × Nat) : Prop :=
  (q.2 = tAny ∨ q.2 = tA) ∧ q.1 = n.fqdn.labels

def NamedResponder.asksReverse (n : NamedResponder) (q : Labels × Nat) : Prop :=
  (q.2 = tAny ∨ q.2 = tPtr) ∧ q.1 = n.arpa.labels

def NamedService.asksPointer (s : NamedService) (q : Labels × Nat) : Prop :=
  (q.2 = tAny ∨ q.2 = tPtr) ∧ (q.1 = s.ptr.labels ∨ q.1 = s.fqsn.labels)

structure NamedResponder.Apart (n : NamedResponder) (q q' : Labels × Nat) : Prop where
  address : ¬ (n.asksAddress q ∧ n.asksAddress q')
  reverse : ¬ (n.asksReverse q ∧ n.asksReverse q')
  pointer : ∀ s ∈ n.services, ¬ (s.asksPointer q ∧ s.asksPointer q')

structure Serving (n : NamedResponder) (ss : List (NamedService × Added)) : Prop where
  services : ss.map Prod.fst = n.services
  distinct : (ss.map (·.1.fqsn.labels)).Nodup

theorem Serving.mem (h : Serving n ss) (hx : x ∈ ss) : x.1 ∈ n.services := by
  rw [← h.services]
  exact List.mem_map_of_mem hx

theorem Serving.exists_mem (h : Serving n ss) (hs : s ∈ n.services) : ∃ x ∈ ss, x.1 = s := by
  rw [← h.services] at hs
  exact List.mem_map.mp hs

theorem Serving.unique (h : Serving n ss) (hx : x ∈ ss) (hy : y ∈ ss)
    (heq : x.1.fqsn.labels = y.1.fqsn.labels) : x = y :=
  inj_on_of_nodup_map h.distinct hx hy heq

theorem Serving.noted (h : Serving n ss) (q : Labels × Nat) : Serving n (n.noted q ss) := by
  have h1 := h.services
  have h2 := h.distinct
  unfold NamedResponder.noted
  refine ⟨?_, ?_⟩
  · rw [List.map_map]
    exact h1
  · rw [List.map_map]
    exact h2

theorem txt_type {ttl : Nat} (he : e ∈ s.txt ttl) : e.type = tTxt := by
  obtain ⟨keyvals, -, rfl⟩ := NamedService.of_mem_txt he
  rfl

theorem pointer_not_noted (x : NamedService × Added) : ¬ Noted fqdn x (s.pointer 255) := by
  rintro (⟨-, h⟩ | ⟨-, h⟩)
  · exact absurd (congrArg Entry.type h) (show tPtr ≠ tSrv by decide)
  · exact absurd (txt_type h) (show tPtr ≠ tTxt by decide)

theorem Noted.mem_announced (h : Noted fqdn x e) : e ∈ x.1.announced fqdn 255 := by
  rcases h with ⟨-, rfl⟩ | ⟨-, h⟩
  · exact NamedService.mem_announced.mpr (.inl rfl)
  · exact NamedService.mem_announced.mpr (.inr (.inr h))

theorem Noted.keep (h : Noted fqdn (s, added) e) (q : Labels × Nat) : Noted fqdn (s, (s.answers fqdn q added).2) e := by
  have hmono : (added.srv = true → (s.answers fqdn q added).2.srv = true) ∧
      (added.txt = true → (s.answers fqdn q added).2.txt = true) := by
    unfold NamedService.answers
    split_ifs <;> simp_all
  rcases h with ⟨hs, rfl⟩ | ⟨ht, he⟩
  · exact .inl ⟨hmono.1 hs, rfl⟩
  · exact .inr ⟨hmono.2 ht, he⟩

theorem srv_not_noted (h : added.srv = false) : ¬ Noted fqdn (s, added) (s.srv fqdn 255) := by
  rintro (⟨hs, -⟩ | ⟨-, he⟩)
  · exact absurd (h.symm.trans hs) (by decide)
  · exact absurd (txt_type he) (show tSrv ≠ tTxt by decide)

theorem txt_not_noted (h : added.txt = false) (he : e ∈ s.txt 255) : ¬ Noted fqdn (s, added) e := by
  rintro (⟨-, rfl⟩ | ⟨ht, -⟩)
  · exact absurd (txt_type he) (show tSrv ≠ tTxt by decide)
  · exact absurd (h.symm.trans ht) (by decide)

theorem isSome_of_mem_txt {ttl : Nat} (he : e ∈ s.txt ttl) : s.service.keyvals.isSome = true := by
  obtain ⟨keyvals, hk, -⟩ := NamedService.of_mem_txt he
  rw [hk]
  rfl

theorem answers_fresh (he : e ∈ (s.answers fqdn q added).1) :
    ¬ Noted fqdn (s, added) e ∧
      (e = s.pointer 255 ∧ s.asksPointer q ∨ Noted fqdn (s, (s.answers fqdn q added).2) e) := by
  unfold NamedService.answers at he ⊢
  split at he
  · next hptr =>
    split at he
    · next hname =>
      rw [if_pos hptr, if_pos hname]
      rcases mem_append.mp he with he | he
      · rcases mem_append.mp he with he | he
        · obtain ⟨hs, he⟩ := mem_ite_nil_left.mp he
          obtain rfl := mem_singleton.mp he
          exact ⟨srv_not_noted (by simpa using hs), .inr (.inl ⟨rfl, rfl⟩)⟩
        · obtain rfl := mem_singleton.mp he
          exact ⟨pointer_not_noted _, .inl ⟨rfl, hptr, hname⟩⟩
      · obtain ⟨ht, he⟩ := mem_ite_nil_left.mp he
        refine ⟨txt_not_noted (by simpa using ht) he, .inr (.inr ⟨?_, he⟩)⟩
        show (added.txt || s.service.keyvals.isSome) = true
        rw [isSome_of_mem_txt he, Bool.or_true]
    · cases he
  · next hptr =>
    rw [if_neg hptr]
    split at he
    · next hsrv =>
      rw [if_pos hsrv]
      split at he
      · next hname =>
        rw [if_pos hname]
        obtain rfl := mem_singleton.mp he
        exact ⟨srv_not_noted hname.2, .inr (.inl ⟨rfl, rfl⟩)⟩
      · cases he
    · next hsrv =>
      rw [if_neg hsrv]
      split at he
      · next htxt =>
        rw [if_pos htxt]
        split at he
        · next hname =>
          rw [if_pos hname]
          exact ⟨txt_not_noted hname.2.2 he, .inr (.inr ⟨rfl, he⟩)⟩
        · cases he
      · cases he

theorem announced_nodup (s : NamedService) (fqdn : WireName) (ttl : Nat) : (s.announced fqdn ttl).Nodup := by
  have htxt : (s.txt ttl).Nodup := by
    unfold NamedService.txt
    cases s.service.keyvals <;> simp
  refine nodup_cons.mpr ⟨?_, nodup_cons.mpr ⟨?_, htxt⟩⟩
  · intro h
    rcases mem_cons.mp h with h | h
    · exact absurd (congrArg Entry.type h) (show tSrv ≠ tPtr by decide)
    · exact absurd (txt_type h) (show tSrv ≠ tTxt by decide)
  · intro h
    exact absurd (txt_type h) (show tPtr ≠ tTxt by decide)

theorem answers_sublist : (s.answers fqdn q added).1.Sublist (s.announced fqdn 255) := by
  have hone : ∀ (b : Bool) (es : List (Entry WireName)), (if b then [] else es).Sublist es := by
    intro b es
    cases b with
    | true => exact nil_sublist _
    | false => exact List.Sublist.refl _
  unfold NamedService.answers
  split
  · split
    · exact ((hone _ _).append (List.Sublist.refl [s.pointer 255])).append (hone _ _)
    · exact nil_sublist _
  · split
    · split
      · exact singleton_sublist.mpr (.head _)
      · exact nil_sublist _
    · split
      · split
        · exact .cons _ (.cons _ (List.Sublist.refl _))
        · exact nil_sublist _
      · exact nil_sublist _

theorem block_nodup (hp : n.Proper) (h : Serving n ss) (q : Labels × Nat) :
    (n.ownAnswers q ++ n.served q ss).Nodup := by
  refine nodup_append.mpr ⟨?_, ?_, ?_⟩
  · unfold NamedResponder.ownAnswers NamedResponder.hostAnswers NamedResponder.reverseAnswers
    have hne : n.address 255 ≠ n.reverse 255 := fun h => absurd (congrArg Entry.type h) (show tA ≠ tPtr by decide)
    split_ifs <;> simp [hne]
  · refine nodup_flatMap.mpr ⟨fun x _ => answers_sublist.nodup (announced_nodup x.1 n.fqdn 255), ?_⟩
    have hpair := pairwise_map.mp h.distinct
    refine hpair.imp ?_
    intro x y hne e hx hy
    have hx' := subject_announced (answers_sublist.subset hx)
    have hy' := subject_announced (answers_sublist.subset hy)
    exact hne (hx'.symm.trans hy')
  · intro e he e' he' heq
    subst heq
    obtain ⟨x, hx, he'⟩ := mem_flatMap.mp he'
    exact hp.apart (h.mem hx) (answers_sublist.subset he') (subject_due (mem_ownAnswers.mp he))

theorem not_mem_respond (hp : n.Proper) (h : Serving n ss) (hx : x ∈ ss) (hnoted : Noted n.fqdn x e) :
    e ∉ (n.respond asked ss).1 := by
  induction asked generalizing ss x with
  | nil => exact not_mem_nil
  | cons q asked ih =>
    intro he
    rcases mem_append.mp he with he | he
    · rcases mem_append.mp he with he | he
      · exact hp.apart (h.mem hx) hnoted.mem_announced (subject_due (mem_ownAnswers.mp he))
      · obtain ⟨y, hy, he⟩ := mem_flatMap.mp he
        have hsame : x = y := h.unique hx hy
          ((subject_announced hnoted.mem_announced).symm.trans (subject_announced (answers_sublist.subset he)))
        subst hsame
        exact (answers_fresh he).1 hnoted
    · exact ih (h.noted q) (mem_noted.mpr ⟨x, hx, rfl⟩) (hnoted.keep q) he

def NamedResponder.Repeats (n : NamedResponder) (q : Labels × Nat) (e : Entry WireName) : Prop :=
  (e = n.address 255 ∧ n.asksAddress q) ∨ (e = n.reverse 255 ∧ n.asksReverse q) ∨
    ∃ s ∈ n.services, e = s.pointer 255 ∧ s.asksPointer q

theorem NamedResponder.Repeats.type (h : n.Repeats q e) : e.type = tA ∨ e.type = tPtr := by
  rcases h with ⟨rfl, -⟩ | ⟨rfl, -⟩ | ⟨s, -, rfl, -⟩
  · exact .inl rfl
  · exact .inr rfl
  · exact .inr rfl

theorem NamedResponder.Repeats.due (h : n.Repeats q e) : n.Due q e ∨ ∃ s ∈ n.services, s.Due n.fqdn q e := by
  rcases h with ⟨rfl, hq⟩ | ⟨rfl, hq⟩ | ⟨s, hs, rfl, hq⟩
  · exact .inl (.address hq.1 hq.2)
  · exact .inl (.reverse hq.1 hq.2)
  · exact .inr ⟨s, hs, .all hq.1 hq.2 (NamedService.mem_announced.mpr (.inr (.inl rfl)))⟩

theorem NamedResponder.Repeats.of_due (h : n.Repeats q e) (hdue : n.Due q' e ∨ ∃ s ∈ n.services, s.Due n.fqdn q' e) :
    n.Repeats q' e := by
  have hsrv : ∀ s : NamedService, e ≠ s.srv n.fqdn 255 := by
    rintro s rfl
    exact absurd h.type (show ¬ (tSrv = tA ∨ tSrv = tPtr) by decide)
  have htxt : ∀ s : NamedService, e ∉ s.txt 255 := by
    intro s he
    exact absurd (txt_type he ▸ h.type) (by decide)
  rcases hdue with hdue | ⟨s, hs, hdue⟩
  · cases hdue with
    | address htype hname => exact .inl ⟨rfl, htype, hname⟩
    | reverse htype hname => exact .inr (.inl ⟨rfl, htype, hname⟩)
  · cases hdue with
    | all htype hname he =>
      rcases NamedService.mem_announced.mp he with he | he | he
      · exact absurd he (hsrv s)
      · exact .inr (.inr ⟨s, hs, he, htype, hname⟩)
      · exact absurd he (htxt s)
    | srv _ _ => exact absurd rfl (hsrv s)
    | txt _ _ he => exact absurd he (htxt s)

theorem apart_iff (hp : n.Proper) (h : Serving n ss) : n.Apart q q' ↔ ∀ e, n.Repeats q e → ¬ n.Repeats q' e := by
  have htype : n.address 255 ≠ n.reverse 255 := fun h => absurd (congrArg Entry.type h) (show tA ≠ tPtr by decide)
  have haddress : ∀ s : NamedService, n.address 255 ≠ s.pointer 255 := fun s h =>
    absurd (congrArg Entry.type h) (show tA ≠ tPtr by decide)
  have hreverse : ∀ s ∈ n.services, n.reverse 255 ≠ s.pointer 255 := fun s hs h =>
    hp.fqsn_ne hs (congrArg Entry.subject h).symm
  constructor
  · rintro hapart e (⟨rfl, hq⟩ | ⟨rfl, hq⟩ | ⟨s, hs, rfl, hq⟩) (⟨he, hq'⟩ | ⟨he, hq'⟩ | ⟨s', hs', he, hq'⟩)
    · exact hapart.address ⟨hq, hq'⟩
    · exact htype he
    · exact haddress s' he
    · exact htype he.symm
    · exact hapart.reverse ⟨hq, hq'⟩
    · exact hreverse s' hs' he
    · exact haddress s he.symm
    · exact hreverse s hs he.symm
    · -- different services have different pointers
      obtain ⟨x, hx, rfl⟩ := h.exists_mem hs
      obtain ⟨y, hy, rfl⟩ := h.exists_mem hs'
      have hsame : x = y := h.unique hx hy (congrArg Entry.subject he)
      subst hsame
      exact hapart.pointer _ hs ⟨hq, hq'⟩
  · intro hall
    refine ⟨?_, ?_, ?_⟩
    · exact fun hq => hall _ (.inl ⟨rfl, hq.1⟩) (.inl ⟨rfl, hq.2⟩)
    · exact fun hq => hall _ (.inr (.inl ⟨rfl, hq.1⟩)) (.inr (.inl ⟨rfl, hq.2⟩))
    · exact fun s hs hq => hall _ (.inr (.inr ⟨s, hs, rfl, hq.1⟩)) (.inr (.inr ⟨s, hs, rfl, hq.2⟩))

theorem mem_respond_of_repeats (hp : n.Proper) (h : Serving n ss) (hq : q ∈ asked) (he : n.Repeats q e) :
    e ∈ (n.respond asked ss).1 := by
  have hasked : n.Asked asked ss e := by
    refine ⟨q, hq, he.due.imp_right ?_⟩
    rintro ⟨s, hs, hdue⟩
    obtain ⟨x, hx, rfl⟩ := h.exists_mem hs
    exact ⟨x, hx, hdue⟩
  rcases mem_respond_of_asked hasked with hmem | ⟨x, hx, hnoted⟩
  · exact hmem
  · rcases he with ⟨rfl, -⟩ | ⟨rfl, -⟩ | ⟨s, -, rfl, -⟩
    · exact absurd rfl (hp.apart (h.mem hx) hnoted.mem_announced)
    · exact absurd rfl (hp.apart (h.mem hx) hnoted.mem_announced)
    · exact absurd hnoted (pointer_not_noted x)

theorem disjoint_respond_iff (hp : n.Proper) (h : Serving n ss) (q : Labels × Nat) :
    (∀ e ∈ n.ownAnswers q ++ n.served q ss, e ∉ (n.respond asked (n.noted q ss)).1) ↔ ∀ q' ∈ asked, n.Apart q q' := by
  constructor
  · intro hdisj q' hq'
    refine (apart_iff hp h).mpr ?_
    intro e he he'
    have hfirst : e ∈ (n.respond [q] ss).1 := mem_respond_of_repeats hp h (.head _) he
    have hblock : (n.respond [q] ss).1 = n.ownAnswers q ++ n.served q ss := append_nil _
    rw [hblock] at hfirst
    exact hdisj e hfirst (mem_respond_of_repeats hp (h.noted q) hq' he')
  · intro hall e he hmem
    have hkind : n.Repeats q e ∨ ∃ x ∈ n.noted q ss, Noted n.fqdn x e := by
      rcases mem_append.mp he with he | he
      · refine .inl ?_
        cases mem_ownAnswers.mp he with
        | address htype hname => exact .inl ⟨rfl, htype, hname⟩
        | reverse htype hname => exact .inr (.inl ⟨rfl, htype, hname⟩)
      · obtain ⟨x, hx, he⟩ := mem_flatMap.mp he
        rcases (answers_fresh he).2 with hptr | hnoted
        · exact .inl (.inr (.inr ⟨x.1, h.mem hx, hptr⟩))
        · exact .inr ⟨_, mem_noted.mpr ⟨x, hx, rfl⟩, hnoted⟩
    rcases hkind with hrep | ⟨x, hx, hnoted⟩
    · obtain ⟨q', hq', hdue⟩ := asked_of_mem_respond hmem
      have hdue' : n.Due q' e ∨ ∃ s ∈ n.services, s.Due n.fqdn q' e := by
        refine hdue.imp_right ?_
        rintro ⟨x, hx, hdue⟩
        exact ⟨x.1, (h.noted q).mem hx, hdue⟩
      exact (apart_iff hp h).mp (hall q' hq') e hrep (hrep.of_due hdue')
    · exact not_mem_respond hp (h.noted q) hx hnoted hmem

theorem nodup_respond_iff (hp : n.Proper) (h : Serving n ss) :
    (n.respond asked ss).1.Nodup ↔ asked.Pairwise n.Apart := by
  induction asked generalizing ss with
  | nil =>
    show [].Nodup ↔ _
    simp
  | cons q asked ih =>
    have hlist : (n.respond (q :: asked) ss).1 =
      n.ownAnswers q ++ n.served q ss ++ (n.respond asked (n.noted q ss)).1 := rfl
    rw [hlist, nodup_append, pairwise_cons, ih (h.noted q), ← disjoint_respond_iff hp h q]
    constructor
    · rintro ⟨-, hrest, hdisj⟩
      exact ⟨fun e he he' => hdisj e he e he' rfl, hrest⟩
    · rintro ⟨hdisj, hrest⟩
      exact ⟨block_nodup hp h q, hrest, fun e he e' he' heq => hdisj e he (heq ▸ he')⟩

end once

end Mdns
