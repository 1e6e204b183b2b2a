import Mdns.Lib.Tiles
import Mdns.Parse.RoundTrip
import Mdns.Parse.Safety

/-!
# The entries of a message, one behind the other

The parser stops at 32 entries of a section and goes on with the next section right there, so a
section that has more is followed by its own rest and not by the next one.
-/
namespace Mdns
open Lib List

section entries
variable {p : Mem} {a b c : Nat} {q q' : Question} {r r' : Resource}

/-- The question that starts at `a` ends before `b`. -/
structure QuestionAt (p : Mem) (a : Nat) (q : Question) (b : Nat) : Prop where
  qname : q.qname = a
  fields : ∃ c, OwnBytes p a c ∧ q.qtype = getUint16 p c ∧ q.qclass = getUint16 p (c + 2) ∧ b = c + 4

/-- The record that starts at `a` ends with its data before `b`. -/
structure ResourceAt (p : Mem) (a : Nat) (r : Resource) (b : Nat) : Prop where
  fields : ∃ c, OwnBytes p a c ∧ r = recordAt p a c
  data : b = r.rdata + r.rdlength

theorem QuestionAt.start (h : QuestionAt p a q b) : q.qname = a ∧ a < b := by
  obtain ⟨c, hc, -, -, rfl⟩ := h.fields
  have hlt := hc.lt
  exact ⟨h.qname, by omega⟩

theorem ResourceAt.start (h : ResourceAt p a r b) : r.name = a ∧ a < b := by
  obtain ⟨c, hc, rfl⟩ := h.fields
  have hlt := hc.lt
  have hb : b = c + 10 + (recordAt p a c).rdlength := h.data
  exact ⟨rfl, by omega⟩

theorem QuestionAt.unique (h : QuestionAt p a q b) (h' : QuestionAt p a q' c) : q = q' ∧ b = c := by
  obtain ⟨d, hd, ht, hc, rfl⟩ := h.fields
  obtain ⟨d', hd', ht', hc', rfl⟩ := h'.fields
  obtain rfl := hd.unique hd'
  refine ⟨?_, rfl⟩
  have hname := h.qname.trans h'.qname.symm
  cases q
  cases q'
  simp_all

theorem ResourceAt.unique (h : ResourceAt p a r b) (h' : ResourceAt p a r' c) : r = r' ∧ b = c := by
  obtain ⟨d, hd, rfl⟩ := h.fields
  obtain ⟨d', hd', rfl⟩ := h'.fields
  obtain rfl := hd.unique hd'
  exact ⟨rfl, h.data.trans h'.data.symm⟩

end entries

section scan
variable {m m' : Message} {q : Question} {r : Resource} {n : Nat} {qs : List Question} {rs : List Resource}

theorem scanName_ownBytes (h : (scanName m).result = some m') : OwnBytes m.data m.cur m'.cur ∧ m'.cur ≤ m.mend + 1 := by
  obtain ⟨c', hc⟩ := exists_ownBytes m.data m.cur
  unfold scanName at h
  rw [nameEnd_eq hc] at h
  by_cases hfits : c' ≤ m.cur + maxNameLen ∧ c' ≤ m.mend + 1
  · rw [if_pos hfits] at h
    cases h
    exact ⟨hc, hfits.2⟩
  · rw [if_neg hfits] at h
    cases h

theorem scanQuestion_at (h : (scanQuestion m).result = some (q, m')) :
    QuestionAt m.data m.cur q m'.cur ∧ m'.cur ≤ m.mend + 1 ∧ m' = { m with cur := m'.cur } := by
  obtain ⟨m1, hm1, h⟩ := andThen_result h
  obtain ⟨hroom, h⟩ := need_result h
  cases h
  obtain ⟨hown, -⟩ := scanName_ownBytes hm1
  have heq := scanName_result hm1
  have hd : m1.data = m.data := by rw [heq]
  have he : m1.mend = m.mend := by rw [heq]
  rw [hd]
  refine ⟨⟨rfl, m1.cur, hown, rfl, rfl, rfl⟩, he ▸ hroom, ?_⟩
  rw [heq]

def RecordAt (p : Mem) (a : Nat) (r : Resource) (b : Nat) : Prop := ResourceAt p a r b ∧ (r.type = tA → r.rdlength = 4)

theorem scanResource_at (h : (scanResource m).result = some (r, m')) :
    RecordAt m.data m.cur r m'.cur ∧ m'.cur ≤ m.mend + 1 ∧ m' = sortRecord { m with cur := m'.cur } r := by
  obtain ⟨m1, hm1, h⟩ := andThen_result h
  obtain ⟨-, h⟩ := need_result h
  obtain ⟨hroom, h⟩ := need_result h
  obtain ⟨_, hdata, h⟩ := andThen_result h
  obtain ⟨rfl, rfl⟩ := Prod.mk.inj (Option.some.inj h)
  obtain ⟨hown, -⟩ := scanName_ownBytes hm1
  have heq := scanName_result hm1
  rw [heq] at hroom hdata ⊢
  generalize m1.cur = c at hown hroom hdata ⊢
  rw [sortRecord_cur]
  refine ⟨⟨⟨⟨c, hown, rfl⟩, rfl⟩, ?_⟩, hroom, (sortRecord_cur _ _ _).symm⟩
  intro htype
  rw [scanRdata, if_pos htype] at hdata
  exact (need_result hdata).1

theorem scanMany_tiles {α : Type} {scan : Message → Scan (α × Message)} {R : Mem → Nat → α → Nat → Prop}
    (hs : ∀ m x m', (scan m).result = some (x, m') → R m.data m.cur x m'.cur ∧ m'.cur ≤ m.mend + 1)
    (hk : ∀ m x, (scan m).result = some x → Kept m x.2) {xs : List α} (hcur : m.cur ≤ m.mend + 1)
    (h : (scanMany scan n m).result = some (xs, m')) :
    Tiles (R m.data) m.cur xs m'.cur ∧ m'.cur ≤ m.mend + 1 ∧ xs.length = n := by
  induction n generalizing m xs with
  | zero =>
    cases h
    exact ⟨.nil, hcur, rfl⟩
  | succ n ih =>
    obtain ⟨⟨x, m1⟩, hx, h⟩ := andThen_result h
    obtain ⟨⟨ys, m2⟩, hys, h⟩ := andThen_result h
    cases h
    obtain ⟨hfirst, hroom⟩ := hs m x m1 hx
    have hkept : Kept m m1 := hk m _ hx
    obtain ⟨hrest, hend, hlen⟩ := @ih m1 ys (hkept.mend ▸ hroom) hys
    rw [hkept.data] at hrest
    exact ⟨.cons hfirst hrest, hkept.mend ▸ hend, congrArg Nat.succ hlen⟩

theorem scanMany_questionAt (h : (scanMany scanQuestion n m).result = some (qs, m')) (hcur : m.cur ≤ m.mend + 1) :
    Tiles (QuestionAt m.data) m.cur qs m'.cur ∧ m'.cur ≤ m.mend + 1 ∧ qs.length = n :=
  scanMany_tiles (R := QuestionAt) (fun _ _ _ h => ⟨(scanQuestion_at h).1, (scanQuestion_at h).2.1⟩)
    (fun _ _ => scanQuestion_kept) hcur h

theorem scanMany_recordAt (h : (scanMany scanResource n m).result = some (rs, m')) (hcur : m.cur ≤ m.mend + 1) :
    Tiles (RecordAt m.data) m.cur rs m'.cur ∧ m'.cur ≤ m.mend + 1 ∧ rs.length = n :=
  scanMany_tiles (R := RecordAt) (fun _ _ _ h => ⟨(scanResource_at h).1, (scanResource_at h).2.1⟩)
    (fun _ _ => scanResource_kept) hcur h

theorem sorted_move (m : Message) (c : Nat) (rs : List Resource) :
    sorted { m with cur := c } rs = { sorted m rs with cur := c } := rfl

theorem scanMany_questions_result (h : (scanMany scanQuestion n m).result = some (qs, m')) :
    m' = { m with cur := m'.cur } := by
  induction n generalizing m qs with
  | zero =>
    cases h
    rfl
  | succ n ih =>
    obtain ⟨⟨q, m1⟩, hq, h⟩ := andThen_result h
    obtain ⟨⟨qs', m2⟩, hqs, h⟩ := andThen_result h
    cases h
    have h1 := (scanQuestion_at hq).2.2
    have h2 := ih hqs
    rw [h1] at h2
    exact h2

theorem scanMany_resources_result (h : (scanMany scanResource n m).result = some (rs, m')) :
    m' = { sorted m rs with cur := m'.cur } := by
  induction n generalizing m rs with
  | zero =>
    cases h
    rfl
  | succ n ih =>
    obtain ⟨⟨r, m1⟩, hr, h⟩ := andThen_result h
    obtain ⟨⟨rs', m2⟩, hrs, h⟩ := andThen_result h
    cases h
    have h1 := (scanResource_at hr).2.2
    have h2 := ih hrs
    rw [h1, ← sorted_cons, sorted_move] at h2
    exact h2

end scan

section layout
variable {data : Mem} {mlen : Nat} {m : Message}

structure Stored (data : Mem) (mlen : Nat) (m : Message) (a b : Nat) : Prop where
  packet : m.data = swapFlags data
  questions : Tiles (QuestionAt (swapFlags data)) headerSize m.questions a
  answers : Tiles (RecordAt (swapFlags data)) a m.answers b
  authorities : Tiles (RecordAt (swapFlags data)) b m.authorities m.cur
  inside : m.cur ≤ mlen
  numQuestions : m.questions.length = min (getUint16 data 4) maxQuestions
  numAnswers : m.answers.length = min (getUint16 data 6) maxAnswers
  numAuthorities : m.authorities.length = min (getUint16 data 8) maxAuthorities
  lists : m = { sorted (startMessage data mlen) m.records with
    cur := m.cur, questions := m.questions, answers := m.answers, authorities := m.authorities }

theorem scanPacket_stored (h : (scanPacket data mlen).result = some m) : ∃ a b, Stored data mlen m a b := by
  obtain ⟨⟨qs, m1⟩, ⟨as, m2⟩, ⟨rs, m3⟩, hq, ha, hr, hlen, rfl, -⟩ := scanPacket_sections h
  have hmend : (startMessage data mlen).mend + 1 = mlen := Nat.sub_add_cancel (Nat.le_trans (by decide) hlen)
  -- each section changes the cursor and the lists only
  obtain ⟨c1, rfl⟩ : ∃ c, m1 = { startMessage data mlen with cur := c } := ⟨_, scanMany_questions_result hq⟩
  obtain ⟨tq, lq, nq⟩ := scanMany_questionAt hq (by rw [hmend]; exact hlen)
  obtain ⟨c2, rfl⟩ : ∃ c, m2 = { sorted { startMessage data mlen with cur := c1, questions := qs } as with cur := c } :=
    ⟨_, scanMany_resources_result ha⟩
  obtain ⟨ta, la, na⟩ := scanMany_recordAt ha lq
  obtain ⟨c3, rfl⟩ : ∃ c, m3 = { sorted { sorted { startMessage data mlen with cur := c1, questions := qs } as with
      cur := c2, answers := as } rs with cur := c } := ⟨_, scanMany_resources_result hr⟩
  obtain ⟨tr, lr, nr⟩ := scanMany_recordAt hr la
  refine ⟨c1, c2, rfl, tq, ta, tr, hmend ▸ lr, nq, na, nr, ?_⟩
  simp [sorted, Message.records, filter_append, reverse_append, append_assoc]

theorem Stored.sorted {a b : Nat} (h : Stored data mlen m a b) :
    m.as.Perm (m.records.filter (·.type = tA)) ∧ m.srvs.Perm (m.records.filter (·.type = tSrv)) ∧
      m.txts.Perm (m.records.filter (·.type = tTxt)) ∧ m.ptrs.Perm (m.records.filter (·.type = tPtr)) := by
  have hlist : ∀ t, List.Perm ((m.records.filter (·.type = t)).reverse ++ []) (m.records.filter (·.type = t)) := by
    intro t
    rw [append_nil]
    exact reverse_perm _
  refine ⟨?_, ?_, ?_, ?_⟩
  · rw [congrArg Message.as h.lists]
    exact hlist tA
  · rw [congrArg Message.srvs h.lists]
    exact hlist tSrv
  · rw [congrArg Message.txts h.lists]
    exact hlist tTxt
  · rw [congrArg Message.ptrs h.lists]
    exact hlist tPtr

structure Tiled (data : Mem) (mlen : Nat) (m : Message) : Prop where
  packet : m.data = swapFlags data
  entries : ∃ a b, Tiles (QuestionAt m.data) headerSize m.questions a ∧ Tiles (ResourceAt m.data) a m.answers b ∧
    Tiles (ResourceAt m.data) b m.authorities m.cur
  few : m.questions.length ≤ 32 ∧ m.answers.length ≤ 32 ∧ m.authorities.length ≤ 32
  cursor : headerSize ≤ m.cur ∧ m.cur ≤ mlen
  addresses : ∀ r ∈ m.records, r.type = tA → r.rdlength = 4
  nodup : m.records.Nodup
  as : m.as.Perm (m.records.filter (·.type = tA))
  srvs : m.srvs.Perm (m.records.filter (·.type = tSrv))
  txts : m.txts.Perm (m.records.filter (·.type = tTxt))
  ptrs : m.ptrs.Perm (m.records.filter (·.type = tPtr))

/-- Every message that the parser accepts is laid out like that. -/
theorem mdnsParseMessage_tiled {fuel : Nat} (h : mdnsParseMessage fuel data mlen = .ok m) : Tiled data mlen m := by
  obtain ⟨a, b, hs⟩ := scanPacket_stored (mdnsParseMessage_ok_iff.mp ⟨fuel, h⟩).1
  have hrecords := hs.answers.append hs.authorities
  obtain ⟨hlas, hlsrvs, hltxts, hlptrs⟩ := hs.sorted
  refine ⟨hs.packet, ⟨a, b, ?_, ?_, ?_⟩, ⟨?_, ?_, ?_⟩, ⟨?_, hs.inside⟩, ?_, ?_, hlas, hlsrvs, hltxts, hlptrs⟩
  · rw [hs.packet]
    exact hs.questions
  · rw [hs.packet]
    exact hs.answers.imp (fun _ _ _ h => h.1)
  · rw [hs.packet]
    exact hs.authorities.imp (fun _ _ _ h => h.1)
  · rw [hs.numQuestions]
    exact Nat.min_le_right _ _
  · rw [hs.numAnswers]
    exact Nat.min_le_right _ _
  · rw [hs.numAuthorities]
    exact Nat.min_le_right _ _
  · exact Nat.le_trans (hs.questions.le (fun _ _ _ h => h.start.2)) (hrecords.le (fun _ _ _ h => h.1.start.2))
  · exact hrecords.forall (fun _ _ _ h => h.2)
  · exact hrecords.nodup (fun _ _ _ h => h.1.start)

/-- A probe for `a` with two questions, a known address and an SRV and a TXT record. -/
def probePacket : Mem :=
  [0, 0, 0, 0, 0, 2, 0, 1, 0, 2, 0, 0] ++ [1, 97, 0, 0, 255, 0, 1] ++ [192, 12, 0, 1, 0, 1] ++
    [192, 12, 0, 1, 0, 1, 0, 0, 0, 120, 0, 4, 10, 0, 0, 1] ++
      [192, 12, 0, 33, 0, 1, 0, 0, 0, 120, 0, 8, 0, 0, 0, 0, 0, 80, 192, 12] ++
    [192, 12, 0, 16, 0, 1, 0, 0, 0, 120, 0, 4, 3, 97, 61, 49]

theorem mdnsParseMessage_tiled_probe : ∃ m, mdnsParseMessage 10 probePacket probePacket.length = .ok m ∧
    m.questions.map (·.qname) = [12, 19] ∧ m.answers.map (·.type) = [tA] ∧ m.authorities.map (·.type) = [tSrv, tTxt] ∧
    Tiled probePacket probePacket.length m := by
  have heval : ((mdnsParseMessage 10 probePacket probePacket.length).toOption.any fun m =>
    decide (m.questions.map (·.qname) = [12, 19] ∧
      m.answers.map (·.type) = [tA] ∧ m.authorities.map (·.type) = [tSrv, tTxt])) = true := by decide +kernel
  obtain ⟨m, hok, heval⟩ := exists_ok heval
  obtain ⟨hquestions, hanswers, hauthorities⟩ := of_decide_eq_true heval
  exact ⟨m, hok, hquestions, hanswers, hauthorities, mdnsParseMessage_tiled hok⟩

end layout

section sections
variable {data : Mem} {mlen : Nat} {m : Message} {questions : List Question} {answers authorities : List Resource}

/-- A well-formed message: its sections follow one another and have as many entries as the header says. -/
structure Sections (data : Mem) (mlen : Nat) (questions : List Question)
    (answers authorities : List Resource) : Prop where
  entries : ∃ a b c, Tiles (QuestionAt (swapFlags data)) headerSize questions a ∧
    Tiles (ResourceAt (swapFlags data)) a answers b ∧ Tiles (ResourceAt (swapFlags data)) b authorities c ∧ c ≤ mlen
  qdcount : questions.length = getUint16 data 4
  ancount : answers.length = getUint16 data 6
  nscount : authorities.length = getUint16 data 8

def StoresSections (m : Message) (questions : List Question) (answers authorities : List Resource) : Prop :=
  m.questions = questions.take 32 ∧ m.answers = answers.take 32 ∧ m.authorities = authorities.take 32

/-- The parser goes on where the next section starts if no section with more than 32 entries is
followed by another one. -/
theorem mdnsParseMessage_sections_iff {fuel : Nat} (hw : Sections data mlen questions answers authorities)
    (h : mdnsParseMessage fuel data mlen = .ok m) :
    StoresSections m questions answers authorities ↔
      (questions.length ≤ 32 ∨ answers = [] ∧ authorities = []) ∧ (answers.length ≤ 32 ∨ authorities = []) := by
  obtain ⟨a, b, hs⟩ := scanPacket_stored (mdnsParseMessage_ok_iff.mp ⟨fuel, h⟩).1
  obtain ⟨a', b', c', hq, ha, hr, -⟩ := hw.entries
  have hlq : m.questions.length = min questions.length 32 := by rw [hw.qdcount]; exact hs.numQuestions
  have hla : m.answers.length = min answers.length 32 := by rw [hw.ancount]; exact hs.numAnswers
  have hlr : m.authorities.length = min authorities.length 32 := by rw [hw.nscount]; exact hs.numAuthorities
  have sa : Tiles (ResourceAt (swapFlags data)) a m.answers b := hs.answers.imp (fun _ _ _ h => h.1)
  have sr : Tiles (ResourceAt (swapFlags data)) b m.authorities m.cur := hs.authorities.imp (fun _ _ _ h => h.1)
  have hstart : ∀ a x b, ResourceAt (swapFlags data) a x b → x.name = a ∧ a < b := fun _ _ _ h => h.start
  have huniq : ∀ a x y b c, ResourceAt (swapFlags data) a x b → ResourceAt (swapFlags data) a y c → x = y ∧ b = c :=
    fun _ _ _ _ _ h h' => h.unique h'
  obtain ⟨hquestions, hqend⟩ :=
    hs.questions.take_min (fun _ _ _ _ _ h h' => h.unique h') (fun _ _ _ h => h.start) hq hlq
  have hanswers := sa.take_iff huniq hstart ha hla (by decide)
  have hauthorities := sr.take_iff huniq hstart hr hlr (by decide)
  have hfirst : StoresSections m questions answers authorities ↔
    (answers = [] ∨ a = a') ∧ (authorities = [] ∨ b = b') := by
    rw [← hanswers, ← hauthorities]
    exact ⟨fun h => h.2, fun h => ⟨hquestions, h⟩⟩
  rw [hfirst]
  by_cases hnil : answers = []
  · -- the authorities are read from where the answers are
    subst hnil
    cases ha
    have hb : a = b := (sa.end_eq_iff (fun _ _ _ h => (hstart _ _ _ h).2)).mpr
      (eq_nil_of_length_eq_zero (by rw [hla]; rfl))
    subst hb
    rw [← hqend]
    simp [or_comm]
  · by_cases heq : a = a'
    · subst heq
      have hend := (sa.take_min huniq hstart ha hla).2
      rw [← hend, ← hqend]
      simp [or_comm]
    · rw [← hqend]
      simp [hnil, heq]

/-- The response with one SRV record has no section of more than 32 entries. -/
theorem mdnsParseMessage_sections_srv : StoresSections selfTargetMessage [] [selfTargetSrv] [] := by
  have ha : (scanMany scanResource 1 (startMessage selfTarget 31)).result =
      some ([selfTargetSrv], { startMessage selfTarget 31 with cur := 31, srvs := [selfTargetSrv] }) :=
        by decide +kernel
  obtain ⟨ta, -⟩ := scanMany_recordAt ha (by decide)
  have hw : Sections selfTarget 31 [] [selfTargetSrv] [] :=
    ⟨⟨12, 31, 31, .nil, ta.imp (fun _ _ _ h => h.1), .nil, Nat.le_refl _⟩, by decide, by decide, by decide⟩
  have h : mdnsParseMessage 2 selfTarget 31 = .ok selfTargetMessage := by decide +kernel
  exact (mdnsParseMessage_sections_iff hw h).mpr ⟨.inl (by decide), .inl (by decide)⟩

def longQuery : Mem :=
  [0, 0, 0, 0, 0, 33, 0, 1, 0, 0, 0, 0] ++ (replicate 33 [1, 97, 0, 0, 255, 0, 1]).flatten ++
    [0xC0, 12, 0, 1, 0, 1, 0, 0, 0, 120, 0, 4, 10, 0, 0, 1]

def longQueryQuestions : List Question :=
  (List.range 33).map (fun i => { qname := 12 + 7 * i, qtype := 255, qclass := 1 })

def longQueryAnswer : Resource := { name := 243, type := tA, cls := cIn, ttl := 120, rdlength := 4, rdata := 255 }

/-- What is stored for it: the answer is the last question, with the start of the real one for its other fields. -/
def longQueryMessage : Message :=
  { data := swapFlags longQuery, mend := 258, cur := 250, numQuestions := 32, numAnswers := 1,
    questions := longQueryQuestions.take 32,
    answers := [{ name := 236, type := 255, cls := cIn, ttl := 0xC00C0001, rdlength := 1, rdata := 249 }] }

/-- The last question of the query is stored as its answer. -/
theorem mdnsParseMessage_longQuery :
    Sections longQuery 259 longQueryQuestions [longQueryAnswer] [] ∧
      mdnsParseMessage 2 longQuery 259 = .ok longQueryMessage ∧
        ¬ StoresSections longQueryMessage longQueryQuestions [longQueryAnswer] [] := by
  have hq : (scanMany scanQuestion 33 (startMessage longQuery 259)).result =
      some (longQueryQuestions, { startMessage longQuery 259 with cur := 243 }) := by decide +kernel
  have ha : (scanMany scanResource 1 { startMessage longQuery 259 with cur := 243 }).result =
      some ([longQueryAnswer],
        { startMessage longQuery 259 with cur := 259, as := [longQueryAnswer] }) := by decide +kernel
  obtain ⟨tq, lq, -⟩ := scanMany_questionAt hq (by decide)
  obtain ⟨ta, -⟩ := scanMany_recordAt ha lq
  refine ⟨⟨⟨243, 259, 259, tq, ta.imp (fun _ _ _ h => h.1), .nil, Nat.le_refl _⟩, by decide, by decide, by decide⟩,
    by decide +kernel, ?_⟩
  intro h
  exact absurd h.2.1 (by decide)

end sections

end Mdns
