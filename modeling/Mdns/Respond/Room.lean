import Mathlib.Algebra.Order.BigOperators.Group.List
import Mathlib.Algebra.Order.Ring.Nat
import Mdns.Respond.Answers

/-!
# Room for a response

`check_max_response` answers a query for all records. If that response fits, then a response that has
no record twice fits, whatever it is asked for.
-/
namespace Mdns
open Lib List

section bytes
variable {es es' : List (Entry WireName)}

theorem bytesOf_append (es es' : List (Entry WireName)) : bytesOf (es ++ es') = bytesOf es + bytesOf es' := by
  rw [bytesOf, map_append, flatMap_append, length_append]
  rfl

theorem bytesOf_perm (h : es.Perm es') : bytesOf es = bytesOf es' := ((h.map _).flatMap_right _).length_eq

theorem bytesOf_sublist (h : es.Sublist es') : bytesOf es ≤ bytesOf es' := by
  induction h with
  | slnil => exact Nat.le_refl _
  | cons e _ ih =>
    rw [bytesOf_cons]
    omega
  | cons_cons e _ ih =>
    rw [bytesOf_cons, bytesOf_cons]
    omega

theorem bytesOf_subset (hnodup : es.Nodup) (h : es ⊆ es') : bytesOf es ≤ bytesOf es' := by
  obtain ⟨l, hperm, hsub⟩ := subperm_of_subset hnodup h
  rw [← bytesOf_perm hperm]
  exact bytesOf_sublist hsub

end bytes

section given
variable {n : NamedResponder} {s : NamedService} {fqdn : WireName} {q : Labels × Nat} {asked : List (Labels × Nat)}
  {ss : List (NamedService × Added)} {added : Added} {e : Entry WireName}

def NamedService.given (fqdn : WireName) (s : NamedService) : List (Labels × Nat) → Added → List (Entry WireName)
  | [], _ => []
  | q :: asked, added => (s.answers fqdn q added).1 ++ s.given fqdn asked (s.answers fqdn q added).2

theorem bytesOf_respond (n : NamedResponder) (asked : List (Labels × Nat)) (ss : List (NamedService × Added)) :
    bytesOf (n.respond asked ss).1 =
      (asked.map (fun q => bytesOf (n.ownAnswers q))).sum +
        (ss.map (fun x => bytesOf (x.1.given n.fqdn asked x.2))).sum := by
  induction asked generalizing ss with
  | nil =>
    have hzero : (ss.map (fun x => bytesOf (x.1.given n.fqdn [] x.2))).sum = 0 := by
      simp [NamedService.given, bytesOf]
    rw [hzero]
    rfl
  | cons q asked ih =>
    have hlist : (n.respond (q :: asked) ss).1 =
      n.ownAnswers q ++ n.served q ss ++ (n.respond asked (n.noted q ss)).1 := rfl
    have hsum : (ss.map (fun x => bytesOf (x.1.given n.fqdn (q :: asked) x.2))).sum =
        (ss.map (fun x => bytesOf (x.1.answers n.fqdn q x.2).1)).sum +
          ((n.noted q ss).map (fun x => bytesOf (x.1.given n.fqdn asked x.2))).sum := by
      rw [NamedResponder.noted, List.map_map, ← sum_map_add]
      congr 1
      apply map_congr_left
      intro x _
      exact bytesOf_append _ _
    rw [hlist, bytesOf_append, bytesOf_append, ih, hsum, NamedResponder.served, bytesOf_flatMap, map_cons, sum_cons]
    omega

theorem mem_given (hq : q ∈ asked) (hdue : s.Due fqdn q e) :
    e ∈ s.given fqdn asked added ∨ Noted fqdn (s, added) e := by
  induction asked generalizing added with
  | nil => cases hq
  | cons q' asked ih =>
    have hspec := answers_spec fqdn q' s added
    have hfirst : e ∈ (s.answers fqdn q' added).1 → e ∈ s.given fqdn (q' :: asked) added := mem_append_left _
    rcases mem_cons.mp hq with rfl | hq
    · exact (hspec.there e hdue).imp_left hfirst
    · rcases @ih (s.answers fqdn q' added).2 hq with he | he
      · exact .inl (mem_append_right _ he)
      · exact (hspec.noted e he).imp_left hfirst

theorem bytesOf_announced_le (hq : q ∈ asked) (hname : s.asksPointer q) :
    s.announcedSize fqdn.size ≤ bytesOf (s.given fqdn asked {}) := by
  rw [← bytesOf_announced s fqdn 255]
  apply bytesOf_subset (announced_nodup s fqdn 255)
  intro e he
  rcases mem_given hq (.all hname.1 hname.2 he) with hgiven | ⟨hnoted, -⟩ | ⟨hnoted, -⟩
  · exact hgiven
  · cases hnoted
  · cases hnoted

end given

section largest
variable {n : NamedResponder} {rx tx response : Message}

/-- The names and types of the questions for all records that the parser keeps. -/
def NamedResponder.allAsked (n : NamedResponder) : List (Labels × Nat) :=
  (n.questions.take maxQuestions).map (fun q => (q.name.labels, q.type))

def NamedResponder.queryRead (n : NamedResponder) : Plan := { n.query with questions := n.questions.take maxQuestions }

theorem NamedResponder.queryRead_valid (n : NamedResponder) : n.queryRead.Valid where
  questions := length_take_le _ _
  answers := Nat.zero_le _
  authorities := Nat.zero_le _
  asked := fun q hq => n.asked_bounded q (mem_of_mem_take hq)
  answer := by
    intro x hx
    cases hx
  authority := by
    intro x hx
    cases hx

theorem NamedResponder.query_hasTtls (n : NamedResponder) : n.query.HasTtls := by
  constructor
  · intro x hx
    cases hx
  · intro x hx
    cases hx

theorem NamedResponder.query_body (n : NamedResponder) :
    n.query.body = n.queryRead.body ++ (n.questions.drop maxQuestions).flatMap Asked.bytes := by
  have hsplit : n.questions.flatMap Asked.bytes =
      (n.questions.take maxQuestions).flatMap Asked.bytes ++ (n.questions.drop maxQuestions).flatMap Asked.bytes := by
    rw [← flatMap_append, take_append_drop]
  simp only [Plan.body, NamedResponder.query, NamedResponder.queryRead, hsplit, flatMap_nil, map_nil, append_nil]

theorem NamedResponder.queryRead_heads (n : NamedResponder) (hroom : headerSize + n.query.body.length ≤ dataMax) :
    n.queryRead.Heads n.query.header := by
  have hq : n.questions.length ≤ n.query.body.length := by
    have hpos : ∀ q : Mdns.Asked, 0 < q.bytes.length := by
      intro q
      rw [length_asked]
      omega
    simpa [Plan.body, NamedResponder.query] using length_le_flatMap hpos n.questions
  refine ⟨rfl, ?_, rfl, rfl⟩
  show min (n.questions.length % 65536) maxQuestions = (n.questions.take maxQuestions).length
  rw [length_take]
  unfold headerSize dataMax at hroom
  omega

theorem checkMaxResponse_comes (n : NamedResponder) (hroom : headerSize + n.query.body.length ≤ dataMax)
    (rx tx : Message) :
    ∃ built ret, Comes (fun fuel => checkMaxResponse fuel n.responder rx tx)
        (some (if ret < 1 then none else some built)) ∧
      (headerSize + bytesOf (n.responses n.allAsked).1 ≤ dataMax →
        built.cur = headerSize + bytesOf (n.responses n.allAsked).1 ∧
        built.mend = dataMax - 1) ∧
      (dataMax < headerSize + bytesOf (n.responses n.allAsked).1 → ret = rsError) := by
  obtain ⟨query, hadd, hm⟩ := @Plan.built n.query rx n.query_hasTtls hroom
  have hm' := hm
  rw [n.query_body] at hm'
  have hcur : query.cur ≤ dataMax := by
    rw [hm.cur]
    exact hroom
  obtain ⟨⟨fuel1, hparse⟩, hasked, -, -⟩ := Plan.parse n.queryRead_valid (n.queryRead_heads hroom) hm' hcur
  have hqs : Forall₂ (Asks (n.queryRead.parsed query.data query.cur))
    (n.queryRead.parsed query.data query.cur).questions
      n.allAsked := by
    refine forall₂_map_right_iff.mpr (hasked.flip.imp ?_)
    intro q' q h
    exact ⟨h.1, h.2.1⟩
  have hqr : (n.queryRead.parsed query.data query.cur).qr = false := by
    have hbyte : byte (n.queryRead.parsed query.data query.cur).data 3 = 0 := hm'.flagByte (n.queryRead_heads hroom)
    rw [Message.qr, hbyte]
    rfl
  obtain ⟨built, ret, ⟨fuel2, hcomes⟩, hfits, hfull⟩ := prepareResponse_comes n hqr hqs tx
  refine ⟨built, ret, ?_, ?_, hfull⟩
  · refine ⟨max fuel1 fuel2, ?_⟩
    intro fuel hle
    have hok : mdnsParseMessage fuel query.data query.cur = _ := hparse fuel (Nat.le_trans (Nat.le_max_left _ _) hle)
    have hret : prepareResponse fuel n.responder _ tx = _ := hcomes fuel (Nat.le_trans (Nat.le_max_right _ _) hle)
    have hadd' : addAll n.query.adds (mdnsQueryInit rx) = (query, true) := hadd
    show checkMaxResponse fuel n.responder rx tx = _
    unfold checkMaxResponse
    rw [queryAdds_eq]
    dsimp only
    rw [hadd']
    dsimp only
    rw [hok]
    dsimp only
    rw [hret]
    rfl
  · intro hle
    obtain ⟨-, hbuilt⟩ := hfits hle
    exact ⟨hbuilt.cur, hbuilt.mend⟩

theorem WireName.size_ge (w : WireName) : 2 * w.labels.length + 1 ≤ w.size := by
  have hlen : ∀ ls : Labels, (∀ l ∈ ls, 0 < l.length ∧ l.length < 64) → 2 * ls.length + 1 ≤ (encodeName ls).length := by
    intro ls
    induction ls with
    | nil => exact fun _ => Nat.le_refl _
    | cons l ls ih =>
      intro h
      have hl := h l (.head _)
      have hls := ih (fun l' hl' => h l' (.tail _ hl'))
      rw [length_encodeName_cons, length_cons]
      omega
  exact hlen w.labels w.sizes

theorem NamedResponder.Proper.announcedSize_ge (hp : n.Proper) {s : NamedService} (hs : s ∈ n.services) :
    56 ≤ s.announcedSize n.fqdn.size := by
  obtain ⟨l, hl⟩ := hp.fqdn
  obtain ⟨⟨l', hl'⟩, hptr⟩ := hp.services s hs
  have h1 := n.fqdn.size_ge
  have h2 := s.fqsn.size_ge
  have h3 := s.ptr.size_ge
  rw [hl] at h1
  rw [hl', Service.suffix] at h2
  rw [hptr, Service.suffix] at h3
  simp only [length_cons, length_nil] at h1 h2 h3
  rw [NamedService.announcedSize]
  omega

/-- The response to a query for all records has the records of the host and of the services that are
asked for. -/
theorem bytesOf_largest (n : NamedResponder) : bytesOf [n.address 255, n.reverse 255] +
    ((n.services.take 30).map (NamedService.announcedSize n.fqdn.size)).sum ≤ bytesOf (n.responses n.allAsked).1 := by
  have hasked : n.allAsked = (n.fqdn.labels, tAny) :: (n.arpa.labels, tAny) ::
      (n.services.take 30).map (fun s => (s.fqsn.labels, tAny)) := by
    show _ :: _ :: List.map _ ((n.services.map NamedService.question).take 30) = _
    rw [← map_take, List.map_map]
    rfl
  have hown : bytesOf [n.address 255, n.reverse 255] ≤ (n.allAsked.map (fun q => bytesOf (n.ownAnswers q))).sum := by
    have haddress : bytesOf [n.address 255] ≤ bytesOf (n.ownAnswers (n.fqdn.labels, tAny)) :=
      bytesOf_subset (nodup_singleton _) (cons_subset.mpr ⟨mem_ownAnswers.mpr (.address (.inl rfl) rfl), nil_subset _⟩)
    have hreverse : bytesOf [n.reverse 255] ≤ bytesOf (n.ownAnswers (n.arpa.labels, tAny)) :=
      bytesOf_subset (nodup_singleton _) (cons_subset.mpr ⟨mem_ownAnswers.mpr (.reverse (.inl rfl) rfl), nil_subset _⟩)
    have hpair : bytesOf [n.address 255, n.reverse 255] = bytesOf [n.address 255] + bytesOf [n.reverse 255] :=
      bytesOf_append [_] [_]
    rw [hasked, map_cons, map_cons, sum_cons, sum_cons, hpair]
    omega
  have hgiven : ((n.services.take 30).map (NamedService.announcedSize n.fqdn.size)).sum ≤
      (n.services.map (fun s => bytesOf (s.given n.fqdn n.allAsked {}))).sum := by
    calc ((n.services.take 30).map (NamedService.announcedSize n.fqdn.size)).sum
      _ ≤ ((n.services.take 30).map (fun s => bytesOf (s.given n.fqdn n.allAsked {}))).sum := by
        apply sum_le_sum
        intro s hs
        have hmem : (s.fqsn.labels, tAny) ∈ n.allAsked := by
          rw [hasked]
          exact mem_cons_of_mem _ (mem_cons_of_mem _ (List.mem_map.mpr ⟨s, hs, rfl⟩))
        exact bytesOf_announced_le hmem ⟨.inl rfl, .inr rfl⟩
      _ ≤ (n.services.map (fun s => bytesOf (s.given n.fqdn n.allAsked {}))).sum := by
        have hsplit := congrArg (fun ss : List NamedService =>
          (ss.map (fun s => bytesOf (s.given n.fqdn n.allAsked {}))).sum)
          (take_append_drop 30 n.services)
        simp only [map_append, sum_append] at hsplit
        omega
  rw [NamedResponder.responses, bytesOf_respond, List.map_map]
  exact Nat.add_le_add hown hgiven

theorem checkMaxResponse_room (hp : n.Proper)
    (h : Comes (fun fuel => checkMaxResponse fuel n.responder rx tx) (some (some response))) :
    n.services.length ≤ 30 ∧ headerSize + bytesOf (n.records 255) ≤ response.cur ∧ response.cur ≤ dataMax ∧
      response.mend = dataMax - 1 := by
  have hquery : headerSize + n.query.body.length ≤ dataMax := by
    by_contra hfull
    have hfail := addAll_full n.query_hasTtls (Nat.lt_of_not_le hfull) rx
    obtain ⟨fuel, hpassed⟩ := h
    have hcheck : checkMaxResponse fuel n.responder rx tx = some (some response) := hpassed fuel (Nat.le_refl _)
    unfold checkMaxResponse at hcheck
    rw [queryAdds_eq] at hcheck
    cases hadd : addAll n.query.adds (mdnsQueryInit rx) with
    | mk m' ok =>
      have hok : ok = false := (congrArg Prod.snd hadd).symm.trans hfail
      subst hok
      simp [hadd] at hcheck
  obtain ⟨built, ret, hcomes, hfits, hfull⟩ := checkMaxResponse_comes n hquery rx tx
  have heq := h.unique hcomes
  have hroom : headerSize + bytesOf (n.responses n.allAsked).1 ≤ dataMax := by
    by_contra hover
    rw [hfull (Nat.lt_of_not_le hover)] at heq
    simp [rsError] at heq
  have hbuilt : response = built := by
    split at heq
    · cases heq
    · cases heq
      rfl
  subst hbuilt
  obtain ⟨hcur, hmend⟩ := hfits hroom
  have hlargest := bytesOf_largest n
  have hfew : n.services.length ≤ 30 := by
    by_contra hmany
    have hsum : 30 * 56 ≤ ((n.services.take 30).map (NamedService.announcedSize n.fqdn.size)).sum := by
      have hlen : ((n.services.take 30).map (NamedService.announcedSize n.fqdn.size)).length = 30 := by
        rw [length_map, length_take]
        omega
      have hbound := card_nsmul_le_sum ((n.services.take 30).map (NamedService.announcedSize n.fqdn.size)) 56
      rw [hlen] at hbound
      apply hbound
      intro x hx
      obtain ⟨s, hs, rfl⟩ := List.mem_map.mp hx
      exact hp.announcedSize_ge (mem_of_mem_take hs)
    unfold headerSize dataMax at hroom
    omega
  refine ⟨hfew, ?_, hcur ▸ hroom, hmend⟩
  have hrecords : bytesOf (n.records 255) =
      bytesOf [n.address 255, n.reverse 255] + (n.services.map (NamedService.announcedSize n.fqdn.size)).sum := by
    have hsum : (n.services.map (fun s => bytesOf (s.announced n.fqdn 255))).sum =
        (n.services.map (NamedService.announcedSize n.fqdn.size)).sum := by
      congr 1
      apply map_congr_left
      intro s _
      exact bytesOf_announced s n.fqdn 255
    rw [← hsum, ← bytesOf_flatMap, ← bytesOf_append]
    rfl
  rw [take_of_length_le hfew] at hlargest
  rw [hcur, hrecords]
  omega

end largest

section once
variable {n : NamedResponder} {rx : Message} {asked : List (Labels × Nat)}

/-- No two questions of the message ask for the same one of the records that are added each time: the
address, the reverse pointer and the pointer to a service. -/
def NamedResponder.AsksOnce (n : NamedResponder) (rx : Message) : Prop :=
  rx.questions.Pairwise fun q q' => ∀ ls ls', Expands (.packet rx.data) q.qname ls →
    Expands (.packet rx.data) q'.qname ls' →
    n.Apart (ls, q.qtype) (ls', q'.qtype)

theorem asksOnce_iff (h : Forall₂ (Asks rx) rx.questions asked) : n.AsksOnce rx ↔ asked.Pairwise n.Apart := by
  unfold NamedResponder.AsksOnce
  generalize rx.questions = qs at h
  induction h with
  | nil => simp
  | @cons q x qs asked hq hqs ih =>
    rw [pairwise_cons, pairwise_cons, ih]
    refine and_congr ?_ Iff.rfl
    clear ih
    induction hqs with
    | nil => simp
    | @cons q' x' qs asked hq' _ ih =>
      obtain ⟨ls, type⟩ := x
      obtain ⟨ls', type'⟩ := x'
      obtain ⟨hname, rfl⟩ := hq
      obtain ⟨hname', rfl⟩ := hq'
      rw [forall_mem_cons, forall_mem_cons, ih]
      refine and_congr ?_ Iff.rfl
      constructor
      · intro hall
        exact hall ls ls' hname hname'
      · intro hapart ls1 ls2 h1 h2
        obtain rfl := h1.unique hname
        obtain rfl := h2.unique hname'
        exact hapart

theorem responses_subset : (n.responses asked).1 ⊆ n.records 255 := by
  intro e he
  obtain ⟨q, -, hdue | ⟨s, hs, hdue⟩⟩ := mem_responses.mp he
  · cases hdue with
    | address _ _ => exact .head _
    | reverse _ _ => exact .tail _ (.head _)
  · exact mem_cons_of_mem _ (mem_cons_of_mem _ (mem_flatMap.mpr ⟨s, hs, hdue.mem⟩))

theorem serving_start (h : (n.services.map (·.fqsn.labels)).Nodup) : Serving n (n.services.map (·, {})) := by
  refine ⟨?_, ?_⟩
  · rw [List.map_map]
    exact List.map_id _
  · rw [List.map_map]
    exact h

theorem replyBits_ne (send delay : Bool) : replyBits send delay ≠ rsError := by
  cases send <;> cases delay <;> decide

/-- A response has no record twice exactly if the questions ask once for the records that are added each
time. When `check_max_response` has returned 0, such a query is always answered. -/
theorem prepareResponse_once (r : Responder) (hr : r.WellNamed) (hne : (r.services.map (plainLabels ·.fqsn)).Nodup)
    (rx tx : Message) (hrx : Parsed rx) (hqr : rx.qr = false) :
    ∃ tx' ret, ∃ es : List (Entry WireName), Comes (fun fuel => prepareResponse fuel r rx tx) (some (tx', ret)) ∧
      (∀ e, e ∈ es ↔ (r.wire hr).AskedFor rx e) ∧
      (ret ≠ rsError → tx'.Holds (replyHeader rx es.length) ((es.map Entry.proposed).flatMap Entry.bytes)) ∧
      (es.Nodup ↔ (r.wire hr).AsksOnce rx) ∧
      ∀ rx0 tx0 response, Comes (fun fuel => checkMaxResponse fuel r rx0 tx0) (some (some response)) →
        (es.Nodup ∧ ret ≠ rsError ↔ (r.wire hr).AsksOnce rx) := by
  have hp := r.wire_proper hr
  obtain ⟨asked, hasked⟩ := hrx.asks
  have hnames : ((r.wire hr).services.map (·.fqsn.labels)).Nodup := by
    have hmap : (r.wire hr).services.map (·.fqsn.labels) = r.services.map (plainLabels ·.fqsn) := by
      rw [Responder.wire, List.map_pmap]
      exact List.pmap_eq_map hr.services
    rw [hmap]
    exact hne
  obtain ⟨tx', ret, hcomes, hfits, hfull⟩ := prepareResponse_comes (r.wire hr) hqr hasked tx
  have honce : ((r.wire hr).responses asked).1.Nodup ↔ (r.wire hr).AsksOnce rx :=
    (nodup_respond_iff hp (serving_start hnames)).trans (asksOnce_iff hasked).symm
  refine ⟨tx', ret, ((r.wire hr).responses asked).1, hcomes, fun e => (askedFor_iff hasked).symm, ?_, honce, ?_⟩
  · intro hret
    by_cases hroom : headerSize + bytesOf ((r.wire hr).responses asked).1 ≤ dataMax
    · exact (hfits hroom).2
    · exact absurd (hfull (Nat.lt_of_not_le hroom)) hret
  · intro rx0 tx0 response hpassed
    constructor
    · intro h
      exact honce.mp h.1
    · intro h
      have hnodup := honce.mpr h
      obtain ⟨-, hrecords, hmax, -⟩ := @checkMaxResponse_room (r.wire hr) rx0 tx0 response hp hpassed
      have hle := bytesOf_subset hnodup responses_subset
      have hbits := (hfits (by omega)).1
      refine ⟨hnodup, ?_⟩
      rw [hbits]
      exact replyBits_ne _ _

/-- Only the second of the questions asks for a pointer, and only the third for the address. -/
theorem prepareResponse_once_foo : ∃ rx, mdnsParseMessage 10 fooQuery fooQuery.length = .ok rx ∧
    rx.questions.map (·.qtype) = [tSrv, tPtr, tA] ∧
    ∃ tx' ret, ∃ es : List (Entry WireName), Comes (fun fuel => prepareResponse fuel fooReady rx rx) (some (tx', ret)) ∧
      (∀ e, e ∈ es ↔ (fooReady.wire fooReady_wellNamed).AskedFor rx e) ∧ es.Nodup := by
  obtain ⟨rx, hok, hqr, htypes, -⟩ := fooQuery_parsed
  obtain ⟨tx', ret, es, hcomes, hrecords, -, honce, -⟩ := prepareResponse_once fooReady fooReady_wellNamed
    (nodup_singleton _) rx rx ⟨_, _, _, hok⟩ hqr
  refine ⟨rx, hok, htypes, tx', ret, es, hcomes, hrecords, honce.mpr ?_⟩
  have hapart : (rx.questions.map (·.qtype)).Pairwise fun t t' =>
      ¬ ((t = tAny ∨ t = tA) ∧ (t' = tAny ∨ t' = tA)) ∧ ¬ ((t = tAny ∨ t = tPtr) ∧ (t' = tAny ∨ t' = tPtr)) := by
    rw [htypes]
    decide
  refine (pairwise_map.mp hapart).imp fun {q q'} h ls ls' _ _ => ⟨?_, ?_, ?_⟩
  · exact fun hq => h.1 ⟨hq.1.1, hq.2.1⟩
  · exact fun hq => h.2 ⟨hq.1.1, hq.2.1⟩
  · exact fun s _ hq => h.2 ⟨hq.1.1, hq.2.1⟩

/-- A query for all records of `foo.local` and for its address. -/
def fooTwice : Mem :=
  [0, 7, 0, 0, 0, 2, 0, 0, 0, 0, 0, 0] ++ encodeName [[102, 111, 111], [108, 111, 99, 97, 108]] ++ [0, 255, 0, 1] ++
    encodeName [[102, 111, 111], [108, 111, 99, 97, 108]] ++ [0, 1, 0, 1]

/-- The address record of `foo.local`. -/
def fooAddress : Mem :=
  encodeName [[102, 111, 111], [108, 111, 99, 97, 108]] ++ [0, 1, 128, 1, 0, 0, 0, 255, 0, 4, 0, 0, 0, 1]

theorem prepareResponse_twice_foo :
    ((mdnsParseMessage 10 fooTwice fooTwice.length).toOption.bind fun rx =>
      (prepareResponse 10 fooReady rx rx).map fun x => (x.2, slice x.1.data headerSize (x.1.cur - headerSize))) =
      some (1, fooAddress ++ fooAddress) := by
  decide +kernel

end once

end Mdns
