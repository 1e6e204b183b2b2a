import Mdns.Query.Passes

/-!
# Known answers

The second pass of `prepare_query` lists the PTR records that are in the cache already. An answer is
written as a whole or not at all.
-/
namespace Mdns
open Lib List

variable {n k : Nat} {q q₁ q' : Querier n k} {s a : Fin n} {c : Fin k} {elapsed : Nat} {ws : List Attempt}

section pass
variable {m : Message} {h : Header} {body : Mem} {ws : List (Fin k × Fin n)}

def ServiceInstance.cname (i : ServiceInstance n k) : List UInt8 := i.servname.takeWhile (· ≠ 0)

def Querier.answerBytes (q : Querier n k) (x : Fin k × Fin n) : Mem :=
  pointerBytes (q.smons x.1).fqstOffset ++ fixedBytes tPtr cIn ((q.sinsts x.2).ptrTtl / 1000) ++
    (setUint16 ((q.sinsts x.2).cname.length + 3) ++ dnamePutLabel (q.sinsts x.2).cname ++
      pointerBytes (q.smons x.1).fqstOffset)

def Querier.answerBox (q : Querier n k) (body : Mem) : Box (Fin k × Fin n) where
  size x := (q.answerBytes x).length
  must _ := false
  room := dataMax - headerSize - body.length

def Querier.answersOf (q : Querier n k) (c : Fin k) (slots : List (Fin n)) : List (Fin k × Fin n) :=
  (slots.filter (fun s => (q.sinsts s).ptrTtl ≠ 0)).map (fun s => (c, s))

def Message.Answers (m : Message) (h : Header) (body : Mem) (q : Querier n k) (ws : List (Fin k × Fin n)) : Prop :=
  m.Holds (h.plus (0, ws.length, 0)) (body ++ ws.flatMap q.answerBytes)

theorem length_answerBytes (q : Querier n k) (c : Fin k) (s : Fin n) :
    (q.answerBytes (c, s)).length = ptrSize (q.sinsts s) := by
  simp [Querier.answerBytes, ptrSize, ServiceInstance.cname, pointerBytes, fixedBytes, setUint16,
    setUint32, dnamePutLabel]

theorem load_answerBox (q : Querier n k) (body : Mem) (ws : List (Fin k × Fin n)) :
    (q.answerBox body).load ws = (ws.flatMap q.answerBytes).length := by
  rw [length_flatMap]
  rfl

theorem Message.Answers.add (hm : m.Answers h body q ws) (hfits : m.cur + (q.answerBytes (c, s)).length ≤ dataMax) :
    ∃ m₁ m₂, mdnsAddAnswerO m (q.smons c).fqstOffset tPtr cIn ((q.sinsts s).ptrTtl / 1000) = some m₁ ∧
      mdnsAddNameLo m₁ (q.sinsts s).cname (q.smons c).fqstOffset = some m₂ ∧ m₂.Answers h body q (ws ++ [(c, s)]) := by
  have hanswer := (appends_putChecked (setUint16 (0xC000 ||| (q.smons c).fqstOffset) ++
    setUint16 tPtr ++ setUint16 cIn ++
    setUint32 ((q.sinsts s).ptrTtl / 1000))).count (fun hm => hm.countAnswer)
  have hname := appends_putChecked (setUint16 ((q.sinsts s).cname.length + 3) ++ dnamePutLabel (q.sinsts s).cname ++
    setUint16 (0xC000 ||| (q.smons c).fqstOffset))
  unfold Querier.answerBytes pointerBytes fixedBytes at hfits
  simp only [length_append] at hfits
  obtain ⟨m₁, h₁, hm₁⟩ := (hanswer m _ _ hm).1 (by simp only [length_append]; omega)
  have hcur : m₁.cur = m.cur + (2 + 2 + 2 + 4) := by
    rw [hm₁.cur, hm.cur]
    simp [setUint16, setUint32, Nat.add_assoc]
  obtain ⟨m₂, h₂, hm₂⟩ := (hname m₁ _ _ hm₁).1 (by
    rw [hcur]
    simp only [length_append]
    simp only [setUint16, setUint32, length_cons, length_nil] at hfits ⊢
    omega)
  refine ⟨m₁, m₂, h₁, h₂, ?_⟩
  have hbytes : q.answerBytes (c, s) = setUint16 (0xC000 ||| (q.smons c).fqstOffset) ++
    setUint16 tPtr ++ setUint16 cIn ++
      setUint32 ((q.sinsts s).ptrTtl / 1000) ++ (setUint16 ((q.sinsts s).cname.length + 3) ++
        dnamePutLabel (q.sinsts s).cname ++ setUint16 (0xC000 ||| (q.smons c).fqstOffset)) := by
    simp [Querier.answerBytes, pointerBytes, fixedBytes]
  unfold Message.Answers
  rw [flatMap_append, flatMap_singleton, hbytes, length_append, length_singleton]
  rw [Header.plus_plus, Header.plus_plus, append_assoc, append_assoc] at hm₂
  exact hm₂

theorem addKnownAnswers_answers {slots : List (Fin n)} (hm : m.Answers h body q ws)
    (hroom : headerSize + body.length ≤ dataMax) :
    (addKnownAnswers (q.smons c).fqstOffset (slots.map q.sinsts) m).Answers h body q
      ((q.answerBox body).fill ws (q.answersOf c slots)) := by
  induction slots generalizing m ws with
  | nil => exact hm
  | cons s slots ih =>
    rw [map_cons]
    unfold addKnownAnswers Querier.answersOf
    by_cases hzero : (q.sinsts s).ptrTtl = 0
    · rw [if_pos hzero, filter_cons_of_neg (by simp [hzero])]
      exact ih hm
    · rw [if_neg hzero, filter_cons_of_pos (by simp [hzero]), map_cons, Box.fill_cons]
      have hcur : m.cur = headerSize + (body.length + (q.answerBox body).load ws) := by
        rw [hm.cur, length_append, load_answerBox]
      have hsize : (q.answerBox body).size (c, s) = ptrSize (q.sinsts s) := length_answerBytes q c s
      have hbox : (q.answerBox body).room = dataMax - headerSize - body.length := rfl
      have hmend : m.mend = dataMax - 1 := hm.mend
      by_cases hfits : (q.answerBox body).load ws + (q.answerBox body).size (c, s) ≤ (q.answerBox body).room
      · have hgo : ¬ (ptrSize (q.sinsts s) : Int) > (m.mend : Int) - m.cur + 1 := by
          unfold dataMax at *
          omega
        obtain ⟨m₁, m₂, h₁, h₂, hm₂⟩ := hm.add (c := c) (s := s) (by rw [length_answerBytes]; omega)
        rw [if_neg hgo, if_pos hfits]
        unfold ServiceInstance.cname at h₂
        dsimp only
        rw [h₁, Option.getD_some, h₂, Option.getD_some]
        exact ih hm₂
      · have hstop : (ptrSize (q.sinsts s) : Int) > (m.mend : Int) - m.cur + 1 := by
          unfold dataMax at *
          omega
        rw [if_pos hstop, if_neg hfits]
        exact hm

def Querier.known (q : Querier n k) (body : Mem) (cs : List (Fin k)) (ws : List (Fin k × Fin n)) :
    List (Fin k × Fin n) :=
  cs.foldl (fun ws c => if (q.smons c).nextRefresh = 0 then
    (q.answerBox body).fill ws (q.answersOf c (q.smons c).sinsts) else ws) ws

theorem answerMonitors_answers {cs : List (Fin k)} {st : Sched n k} (hcs : cs.Nodup) (hsinsts : st.q.sinsts = q.sinsts)
    (hsmons : ∀ c ∈ cs, st.q.smons c = q.smons c) (hm : st.q.tx.Answers h body q ws)
    (hroom : headerSize + body.length ≤ dataMax) :
    (cs.foldl answerMonitor st).q.tx.Answers h body q (q.known body cs ws) := by
  induction cs generalizing st ws with
  | nil => exact hm
  | cons c cs ih =>
    obtain ⟨hout, hcs⟩ := nodup_cons.mp hcs
    obtain ⟨hc, hsmons⟩ := forall_mem_cons.mp hsmons
    rw [foldl_cons]
    unfold Querier.known
    rw [foldl_cons]
    have hstep : (answerMonitor st c).q.sinsts = q.sinsts ∧ (∀ d ∈ cs, (answerMonitor st c).q.smons d = q.smons d) ∧
        (answerMonitor st c).q.tx.Answers h body q (if (q.smons c).nextRefresh = 0 then
          (q.answerBox body).fill ws (q.answersOf c (q.smons c).sinsts) else ws) := by
      unfold answerMonitor
      dsimp only
      rw [hc]
      split
      · refine ⟨hsinsts, fun d hd => ?_, ?_⟩
        · have hdc : d ≠ c := fun he => hout (he ▸ hd)
          exact (Function.update_of_ne hdc ..).trans (hsmons d hd)
        · rw [hsinsts]
          exact addKnownAnswers_answers hm hroom
      · exact ⟨hsinsts, hsmons, hm⟩
    exact ih hcs hstep.1 hstep.2.1 hstep.2.2

end pass

theorem length_le_load (ws : List Attempt) : ws.length ≤ datagram.load ws := by
  induction ws with
  | nil => exact Nat.zero_le _
  | cons x ws ih =>
    have hpos : 0 < datagram.size x := by
      show 0 < (askBytes x.ask).length
      simp [askBytes, setUint16]
    rw [Box.load_cons, length_cons]
    omega

theorem Message.Packs.questions {m m' : Message} {as : List (Fin k × Fin n)} (hm : m.Packs ws)
    (hm' : m'.Answers { queryHeader with questions := ws.length } (ws.flatMap (fun x => askBytes x.ask)) q as) :
    m'.Questions (ws.map Attempt.ask) := by
  have hlen := length_le_load ws
  have hfits := hm.fits
  have hroom : datagram.room < 65536 := by decide
  refine ⟨?_, ?_, ?_⟩
  · rw [hm'.counts.1, length_map]
    show (ws.length + 0) % 65536 = ws.length
    omega
  · rw [flatMap_map]
    exact hm'.body_at.take
  · intro x hx
    obtain ⟨w, hw, rfl⟩ := List.mem_map.mp hx
    exact hm.proper w hw

theorem Message.Packs.noAnswers {m : Message} (hm : m.Packs ws) (q : Querier n k) :
    m.Answers { queryHeader with questions := ws.length } (ws.flatMap (fun x => askBytes x.ask)) q [] := by
  unfold Message.Answers
  rw [flatMap_nil, append_nil]
  exact hm.holds

end Mdns
