import Mdns.Parse.Safety
import Mdns.Dname.Fate

/-!
# Stale bytes behind the packet

The receive buffer is used again for every packet. Only a pointer that starts on the last byte is
completed by a stale byte, and the parse is blind to it exactly when the places to which it can lead
are all of the same consequence.
-/
namespace Mdns
open Lib List

def Message.on (q : Mem) (m : Message) : Message := { m with data := q }

/-- The same return code and, when it is 0, the same counts, questions, records and positions. -/
def SameResult : Res Message → Res Message → Prop
  | .ok m, .ok m' => m' = m.on m'.data
  | .error x, .error y => x = y
  | _, _ => False

def StaleBlind (data : Mem) (mlen : Nat) : Prop :=
  ∀ data', Agree mlen data data' → ∀ r r', Comes (fun fuel => mdnsParseMessage fuel data mlen) r →
    Comes (fun fuel => mdnsParseMessage fuel data' mlen) r' → SameResult r r'

section layout
variable {α β γ : Type} {s : Scan α}

def Scan.map (f : α → β) (s : Scan α) : Scan β := ⟨s.fields, s.result.map f⟩

theorem andThen_map {f : α → β} {t : β → Scan γ} :
    (s.map f).andThen t = s.andThen (fun a => t (f a)) := by
  obtain ⟨ns, _ | a⟩ := s <;> rfl

theorem map_andThen {t : α → Scan β} {f : β → γ} :
    (s.andThen t).map f = s.andThen (fun a => (t a).map f) := by
  obtain ⟨ns, _ | a⟩ := s <;> rfl

theorem andThen_congr {t t' : α → Scan β} (h : ∀ a, s.result = some a → t a = t' a) :
    s.andThen t = s.andThen t' := by
  obtain ⟨ns, _ | a⟩ := s
  · rfl
  · simp only [Scan.andThen, h a rfl]

theorem need_congr {c : Prop} [Decidable c] {s' : Scan α} (h : c → s = s') : Scan.need c s = Scan.need c s' := by
  unfold Scan.need
  split
  · exact h ‹c›
  · rfl

theorem map_need {c : Prop} [Decidable c] {f : α → β} :
    (Scan.need c s).map f = Scan.need c (s.map f) := by
  unfold Scan.need
  split <;> rfl

theorem nameEnd_agree {p q : Mem} {e : Nat} (h : Agree (e + 1) p q) (c : Nat) : nameEnd q e c = nameEnd p e c := by
  obtain ⟨c', hc⟩ := exists_ownBytes p c
  obtain ⟨c'', hc'⟩ := exists_ownBytes q c
  rw [nameEnd_eq hc, nameEnd_eq hc']
  by_cases hin : c' ≤ e + 1
  · rw [hc'.unique (hc.agree h hin)]
  · by_cases hin' : c'' ≤ e + 1
    · rw [hc.unique (hc'.agree h.symm hin')]
    · rw [if_neg (fun hh => hin' hh.2), if_neg (fun hh => hin hh.2)]

variable {q : Mem} {m : Message}

theorem scanName_on (h : Agree (m.mend + 1) m.data q) : scanName (m.on q) = (scanName m).map (·.on q) := by
  have hend : nameEnd (m.on q).data (m.on q).mend (m.on q).cur = nameEnd m.data m.mend m.cur :=
    nameEnd_agree h m.cur
  unfold scanName
  rw [hend]
  cases nameEnd m.data m.mend m.cur <;> rfl

theorem scanQuestion_on (h : Agree (m.mend + 1) m.data q) :
    scanQuestion (m.on q) = (scanQuestion m).map (Prod.map id (·.on q)) := by
  rw [scanQuestion, scanQuestion, scanName_on h, andThen_map, map_andThen]
  refine andThen_congr (fun m' hm' => ?_)
  have hm := scanName_result hm'
  rw [map_need]
  refine need_congr (fun hfit => ?_)
  have hfit : m'.cur + 4 ≤ m.mend + 1 := by rw [hm] at hfit; exact hfit
  have hd : m'.data = m.data := by rw [hm]
  simp only [Scan.map, Scan.done, Message.on, hd, Option.map_some, Prod.map,
    h.getUint16 (show m'.cur + 1 < m.mend + 1 by omega), h.getUint16 (show m'.cur + 2 + 1 < m.mend + 1 by omega)]
  rfl

theorem sortRecord_on (r : Resource) : sortRecord (m.on q) r = (sortRecord m r).on q := by
  unfold sortRecord Message.on
  repeat (first | rfl | split)

theorem recordAt_agree {p : Mem} {e name c : Nat} (h : Agree (e + 1) p q) (hfit : c + 10 ≤ e + 1) :
    recordAt q name c = recordAt p name c := by
  simp only [recordAt, h.getUint16 (show c + 1 < e + 1 by omega), h.getUint16 (show c + 2 + 1 < e + 1 by omega),
    h.getUint32 (show c + 4 + 3 < e + 1 by omega), h.getUint16 (show c + 8 + 1 < e + 1 by omega)]

theorem scanResource_on (h : Agree (m.mend + 1) m.data q) :
    scanResource (m.on q) = (scanResource m).map (Prod.map id (·.on q)) := by
  rw [scanResource, scanResource, scanName_on h, andThen_map, map_andThen]
  refine andThen_congr (fun m' hm' => ?_)
  have hm := scanName_result hm'
  dsimp only
  rw [map_need]
  refine need_congr (fun hfit => ?_)
  have hfit : m'.cur + 10 ≤ m.mend + 1 := by rw [hm] at hfit; exact hfit
  have hd : m'.data = m.data := by rw [hm]
  have hr : recordAt (m'.on q).data (m.on q).cur (m'.on q).cur = recordAt m'.data m.cur m'.cur := by
    rw [hd]
    exact recordAt_agree h hfit
  rw [hr, map_need]
  refine need_congr (fun _ => ?_)
  rw [map_andThen]
  refine andThen_congr (fun _ _ => ?_)
  exact congrArg (fun x => Scan.done (_, x)) (sortRecord_on (m := { m' with cur := _ }) _)

theorem scanMany_on {scan : Message → Scan (α × Message)}
    (hs : ∀ m, Agree (m.mend + 1) m.data q → scan (m.on q) = (scan m).map (Prod.map id (·.on q)))
    (hk : ∀ m x, (scan m).result = some x → Kept m x.2) (n : Nat) (h : Agree (m.mend + 1) m.data q) :
    scanMany scan n (m.on q) = (scanMany scan n m).map (Prod.map id (·.on q)) := by
  induction n generalizing m with
  | zero => rfl
  | succ n ih =>
    rw [scanMany, scanMany, hs m h, andThen_map, map_andThen]
    refine andThen_congr (fun x hx => ?_)
    have hx := hk m x hx
    have hagree : Agree (x.2.mend + 1) x.2.data q := by rw [hx.mend, hx.data]; exact h
    rw [map_andThen]
    have htail := ih hagree
    simp only [Prod.map, id] at htail ⊢
    rw [htail, andThen_map]
    rfl

end layout

section packet
variable {data data' : Mem} {mlen : Nat}

theorem swapFlags_getD {n : Nat} (hn : 4 ≤ n) : (swapFlags data).getD n 0 = data.getD n 0 := by
  obtain ⟨d, rfl⟩ := Nat.exists_eq_add_of_le hn
  simp only [swapFlags, getD_eq_getElem?_getD]
  rw [getElem?_append_right (by simp)]
  simp

theorem swapFlags_agree (h : Agree mlen data data') (hlen : headerSize ≤ mlen) :
    Agree mlen (swapFlags data) (swapFlags data') := by
  have hle : 12 ≤ mlen := hlen
  intro n hn
  by_cases h4 : 4 ≤ n
  · rw [swapFlags_getD h4, swapFlags_getD h4, h n hn]
  · have h0 := h 0 (by omega)
    have h1 := h 1 (by omega)
    have h2 := h 2 (by omega)
    have h3 := h 3 (by omega)
    obtain rfl | rfl | rfl | rfl : n = 0 ∨ n = 1 ∨ n = 2 ∨ n = 3 := by omega
    all_goals simpa [swapFlags, slice, range_succ, getD_eq_getElem?_getD] using by assumption

theorem startMessage_on (h : Agree mlen data data') (hlen : headerSize ≤ mlen) :
    startMessage data' mlen = (startMessage data mlen).on (swapFlags data') := by
  have hle : 12 ≤ mlen := hlen
  simp only [startMessage, Message.on, h.getUint16 (show 4 + 1 < mlen by omega),
    h.getUint16 (show 6 + 1 < mlen by omega), h.getUint16 (show 8 + 1 < mlen by omega)]

theorem scanPacket_on (h : Agree mlen data data') :
    scanPacket data' mlen = (scanPacket data mlen).map (·.on (swapFlags data')) := by
  unfold scanPacket
  dsimp only
  rw [map_need]
  refine need_congr (fun hlen => ?_)
  have hsucc : mlen - 1 + 1 = mlen := Nat.sub_add_cancel (Nat.le_trans (by decide) hlen)
  have hagree := swapFlags_agree h hlen
  have hm : Agree ((startMessage data mlen).mend + 1) (startMessage data mlen).data (swapFlags data') := by
    show Agree (mlen - 1 + 1) (swapFlags data) (swapFlags data')
    rw [hsucc]
    exact hagree
  rw [startMessage_on h hlen, map_need]
  have hop : opcode ((startMessage data mlen).on (swapFlags data')).data = opcode (startMessage data mlen).data := by
    show opcode (swapFlags data') = opcode (swapFlags data)
    unfold opcode
    rw [hagree.byte (Nat.lt_of_lt_of_le (by decide) hlen)]
  simp only [hop]
  refine need_congr (fun _ => ?_)
  have hagain : ∀ {m m' : Message}, Agree (m.mend + 1) m.data (swapFlags data') → Kept m m' →
      Agree (m'.mend + 1) m'.data (swapFlags data') := fun hm hk => by rwa [hk.mend, hk.data]
  have hquestions := scanMany_on (n := (startMessage data mlen).numQuestions) (fun _ => scanQuestion_on)
    (fun _ _ => scanQuestion_kept) hm
  rw [show ((startMessage data mlen).on (swapFlags data')).numQuestions =
    (startMessage data mlen).numQuestions from rfl,
    hquestions, andThen_map, map_andThen]
  refine andThen_congr (fun x hx => ?_)
  have hx := hagain hm (scanMany_kept (fun _ _ => scanQuestion_kept) hx)
  have hanswers := scanMany_on (m := { x.2 with questions := x.1 }) (n := x.2.numAnswers) (fun _ => scanResource_on)
    (fun _ _ => scanResource_kept) hx
  rw [map_andThen]
  refine (congrArg (Scan.andThen · _) hanswers).trans ?_
  rw [andThen_map]
  refine andThen_congr (fun y hy => ?_)
  have hy := hagain (m := { x.2 with questions := x.1 }) hx (scanMany_kept (fun _ _ => scanResource_kept) hy)
  have hauthorities := scanMany_on (m := { y.2 with answers := y.1 }) (n := y.2.numAuthorities)
    (fun _ => scanResource_on) (fun _ _ => scanResource_kept) hy
  rw [map_andThen]
  refine (congrArg (Scan.andThen · _) hauthorities).trans ?_
  rw [andThen_map]
  rfl

/-- What a name with this fate means for the parse, when the rest of the packet means `after`. -/
def consequence (after : Res Unit) : Fate → Res Unit
  | .ends => after
  | .leaves => .error .err
  | .circles => .error .hang
  | .cut => .error .hang

section
variable (p : Mem) (e : Nat)

/-- The verdicts on the name fields and whether the layout is complete, as the return code of
the parse; `next` is the fate of the place that a pointer on the last byte leads to. -/
noncomputable def judge (next : Fate) (complete : Bool) : List Nat → Res Unit
  | [] => if complete then .ok () else .error .err
  | n :: ns => match fate p e (false, n) with
    | .cut => consequence (judge next complete ns) next
    | f => consequence (judge next complete ns) f

/-- The fate of the place to which a stale byte `v` makes a pointer on the last byte lead. -/
noncomputable def staleFate (v : Nat) : Fate := fate p e (true, byte p e % 64 * 256 + v)

/-- Before any name is rejected, none leads to a pointer on the last byte of the packet; or
one does, and then all that a stale byte can make of it is of the same consequence. -/
def StaleFree (complete : Bool) : List Nat → Prop
  | [] => True
  | n :: ns => match fate p e (false, n) with
    | .ends => StaleFree complete ns
    | .leaves => True
    | .circles => True
    | .cut => ∀ v < 256, ∀ v' < 256,
        consequence (judge p e .ends complete ns) (staleFate p e v) =
          consequence (judge p e .ends complete ns) (staleFate p e v')

variable {p e}

theorem judge_agree {q : Mem} (h : Agree (e + 1) p q) (next : Fate) (complete : Bool) (ns : List Nat) :
    judge p e next complete ns = judge q e next complete ns := by
  induction ns with
  | nil => rfl
  | cons n ns ih => rw [judge, judge, fate_agree h, ih]

theorem judge_cons (next : Fate) (complete : Bool) (n : Nat) (ns : List Nat) :
    judge p e next complete (n :: ns) = match settle (fate p e (false, n)) next with
      | some false => judge p e next complete ns
      | some true => .error .err
      | none => .error .hang := by
  rw [judge]
  cases fate p e (false, n) <;> cases next <;> rfl

theorem verdicts_judge (complete : Bool) (ns : List Nat) :
    (verdicts p e ns >>= fun _ => if complete then .ok () else .error .err) =
      judge p e (fate p e (true, pointer p e)) complete ns := by
  induction ns with
  | nil => rfl
  | cons n ns ih =>
    have hsettle := dnameOverrun_settles p e n
    rw [judge_cons, verdicts]
    rcases ends_or_leaves_or_cyclic p e n with h | h | h
    · rw [hsettle.unique h.overrun, if_pos h]
      exact ih
    · rw [hsettle.unique h.overrun, if_neg h.not_ends, if_neg h.not_cyclic]
      rfl
    · rw [hsettle.unique h.overrun, if_neg (fun h' : Ends p e n => h'.not_cyclic h), if_pos h]
      rfl

theorem judge_cons_cut {n : Nat} (h : fate p e (false, n) = .cut) (next : Fate) (complete : Bool) (ns : List Nat) :
    judge p e next complete (n :: ns) = consequence (judge p e .ends complete ns) next := by
  rw [judge, h]
  cases next <;> rfl

theorem staleFree_iff (complete : Bool) (ns : List Nat) :
    (∀ v < 256, ∀ v' < 256,
      judge p e (staleFate p e v) complete ns = judge p e (staleFate p e v') complete ns) ↔
      StaleFree p e complete ns := by
  induction ns with
  | nil => simp [judge, StaleFree]
  | cons n ns ih =>
    cases hf : fate p e (false, n) with
    | ends => simpa only [judge, StaleFree, hf, consequence] using ih
    | leaves => simp [judge, StaleFree, hf, consequence]
    | circles => simp [judge, StaleFree, hf, consequence]
    | cut => simp only [judge_cons_cut hf, StaleFree, hf]

end

theorem sameResult_iff {J J' : Res Unit} (r : Option Message) (q : Mem) :
    SameResult (J >>= fun _ => r.elim (.error .err) .ok)
      (J' >>= fun _ => (r.map (·.on q)).elim (.error .err) .ok) ↔
    (J >>= fun _ => if r.isSome then .ok () else .error .err) =
      (J' >>= fun _ => if r.isSome then .ok () else (.error .err : Res Unit)) := by
  cases J <;> cases J' <;> cases r <;>
    simp [SameResult, Message.on, bind, Except.bind]

/-- Two buffers with the same packet are parsed alike when their first stale bytes are of the
same consequence. -/
theorem sameResult_stale (h : Agree mlen data data') (hlen : headerSize ≤ mlen) :
    SameResult ((scanPacket data mlen).outcome (swapFlags data) (mlen - 1))
      ((scanPacket data' mlen).outcome (swapFlags data') (mlen - 1)) ↔
    judge (swapFlags data) (mlen - 1) (staleFate (swapFlags data) (mlen - 1) (byte data mlen))
        (scanPacket data mlen).result.isSome (nameFields data mlen) =
      judge (swapFlags data) (mlen - 1) (staleFate (swapFlags data) (mlen - 1) (byte data' mlen))
        (scanPacket data mlen).result.isSome (nameFields data mlen) := by
  have hsucc : mlen - 1 + 1 = mlen := Nat.sub_add_cancel (Nat.le_trans (by decide) hlen)
  have hagree : Agree (mlen - 1 + 1) (swapFlags data) (swapFlags data') := by
    rw [hsucc]
    exact swapFlags_agree h hlen
  have hstale : ∀ d : Mem, byte (swapFlags d) (mlen - 1 + 1) = byte d mlen := fun d => by
    rw [hsucc, byte, byte, swapFlags_getD (Nat.le_trans (by decide) hlen)]
  have hnext : fate (swapFlags data) (mlen - 1) (true, pointer (swapFlags data) (mlen - 1)) =
      staleFate (swapFlags data) (mlen - 1) (byte data mlen) := by
    rw [staleFate, pointer, hstale]
  have hnext' : fate (swapFlags data') (mlen - 1) (true, pointer (swapFlags data') (mlen - 1)) =
      staleFate (swapFlags data) (mlen - 1) (byte data' mlen) := by
    rw [← fate_agree hagree, staleFate, pointer, hstale, ← hagree.byte (Nat.lt_succ_self _)]
  rw [scanPacket_on h, Scan.outcome, Scan.outcome, Scan.map, sameResult_iff, verdicts_judge, verdicts_judge,
    ← judge_agree hagree, hnext, hnext', nameFields]

theorem exists_stale (data : Mem) (mlen : Nat) {v : Nat} (hv : v < 256) :
    ∃ data', Agree mlen data data' ∧ byte data' mlen = v := by
  refine ⟨slice data 0 mlen ++ [UInt8.ofNat v], fun n hn => ?_, ?_⟩
  · rw [getD_eq_getElem?_getD (l := _ ++ _), getElem?_append_left (by simpa using hn)]
    simp [slice, hn]
  · rw [byte, getD_eq_getElem?_getD, getElem?_append_right (by simp)]
    simp [Nat.mod_eq_of_lt hv]

/-- The parse is blind to what lies behind the packet exactly when no pointer on its last byte
can make a difference. -/
theorem mdnsParseMessage_staleBlind_iff (data : Mem) (mlen : Nat) :
    StaleBlind data mlen ↔ StaleFree (swapFlags data) (mlen - 1)
      (scanPacket data mlen).result.isSome (nameFields data mlen) := by
  rw [← staleFree_iff]
  by_cases hlen : headerSize ≤ mlen
  · constructor
    · intro h v hv v' hv'
      have hown := fun data' (hagree : Agree mlen data data') => (sameResult_stale hagree hlen).mp
        (h data' hagree _ _ (mdnsParseMessage_comes _ _) (mdnsParseMessage_comes _ _))
      obtain ⟨data', hagree, rfl⟩ := exists_stale data mlen hv
      obtain ⟨data'', hagree', rfl⟩ := exists_stale data mlen hv'
      exact (hown data' hagree).symm.trans (hown data'' hagree')
    · intro h data' hagree r r' hr hr'
      rw [hr.unique (mdnsParseMessage_comes _ _), hr'.unique (mdnsParseMessage_comes _ _),
        sameResult_stale hagree hlen]
      exact h _ (byte_lt _ _) _ (byte_lt _ _)
  · -- the packet is shorter than a header and is rejected before anything is read
    have hcut : ∀ d, scanPacket d mlen = .cut := fun d => by rw [scanPacket, Scan.need, if_neg hlen]
    refine ⟨fun _ v _ v' _ => ?_, fun _ data' _ r r' hr hr' => ?_⟩
    · rw [nameFields, hcut]
      rfl
    · rw [hr.unique (mdnsParseMessage_comes _ _), hr'.unique (mdnsParseMessage_comes _ _), hcut, hcut]
      rfl

end packet

/-- A query whose name leads to a pointer on the last byte of the packet. -/
def lastBytePointer : Mem := [0, 0, 0, 0, 0, 1, 0, 0, 0, 0, 0, 0] ++ [0xC0, 17, 0, 1, 0, 0xC0]

/-- The byte behind it decides whether it is accepted. -/
theorem mdnsParseMessage_lastBytePointer_stale :
    Agree lastBytePointer.length (lastBytePointer ++ [10]) (lastBytePointer ++ [255]) ∧
    (mdnsParseMessage 5 (lastBytePointer ++ [10]) lastBytePointer.length).isOk = true ∧
    mdnsParseMessage 5 (lastBytePointer ++ [255]) lastBytePointer.length = .error .err :=
  ⟨by unfold Agree; decide, by decide +kernel, by decide +kernel⟩

end Mdns
