import Mdns.Parse.Layout

/-!
# The parser follows the layout

With enough fuel the parser comes to what the layout gives once every name field has had its
verdict: the first field that is not accepted decides, by leaving the packet or by circling.
-/
namespace Mdns
open Lib

variable {p : Mem} {e : Nat} {m m' : Message}

section
variable (p : Mem) (e : Nat)
open Classical in
/-- The verdicts of `dname_overrun` on the name fields, in packet order. -/
noncomputable def verdicts : List Nat → Res Unit
  | [] => .ok ()
  | n :: ns =>
    if Ends p e n then verdicts ns
    else if Cyclic p e n then .error .hang else .error .err

noncomputable def Scan.outcome {α : Type} (s : Scan α) : Res α :=
  verdicts p e s.fields >>= fun _ => s.result.elim (.error .err) .ok

variable {p e}

theorem verdicts_append (ns ns' : List Nat) :
    verdicts p e (ns ++ ns') = verdicts p e ns >>= fun _ => verdicts p e ns' := by
  induction ns with
  | nil => rfl
  | cons n ns ih =>
    simp only [List.cons_append, verdicts]
    split
    · exact ih
    · split <;> rfl

theorem verdicts_eq_ok {ns : List Nat} {u : Unit} : verdicts p e ns = .ok u ↔ ∀ n ∈ ns, Ends p e n := by
  induction ns with
  | nil => simp [verdicts]
  | cons n ns ih =>
    simp only [verdicts, List.forall_mem_cons]
    split
    · simp_all
    · split <;> simp_all

@[simp] theorem outcome_done {α : Type} (a : α) : (Scan.done a).outcome p e = .ok a := rfl

@[simp] theorem outcome_cut {α : Type} : (Scan.cut : Scan α).outcome p e = .error .err := rfl

theorem outcome_need {α : Type} {c : Prop} [Decidable c] (s : Scan α) :
    (Scan.need c s).outcome p e = if c then s.outcome p e else .error .err := by
  unfold Scan.need
  split <;> rfl

theorem outcome_andThen {α β : Type} (s : Scan α) (t : α → Scan β) :
    (s.andThen t).outcome p e = s.outcome p e >>= fun a => (t a).outcome p e := by
  obtain ⟨ns, _ | a⟩ := s
  · simp only [Scan.andThen, Scan.outcome, Option.elim_none, bind_assoc]; rfl
  · simp only [Scan.andThen, Scan.outcome, Option.elim_some, verdicts_append, bind_assoc]; rfl

theorem outcome_eq_ok {α : Type} {s : Scan α} {a : α} :
    s.outcome p e = .ok a ↔ s.result = some a ∧ ∀ n ∈ s.fields, Ends p e n := by
  obtain ⟨ns, r⟩ := s
  simp only [Scan.outcome, bind_eq_ok, verdicts_eq_ok]
  cases r with
  | none => simp
  | some b => simp [and_comm, eq_comm]

end

theorem comes_andThen {α β : Type} {f : Nat → Res α} {g : Nat → α → Res β}
    {s : Scan α} {t : α → Scan β} (hf : Comes f (s.outcome p e))
    (hg : ∀ a, s.result = some a → Comes (fun n => g n a) ((t a).outcome p e)) :
    Comes (fun n => f n >>= g n) ((s.andThen t).outcome p e) := by
  rw [outcome_andThen]
  cases hs : s.outcome p e with
  | error x => exact comes_bind_error (hs ▸ hf)
  | ok a => exact comes_bind (hs ▸ hf) (hg a (outcome_eq_ok.mp hs).1)

theorem comes_check {β : Type} {x : Res Unit} {g : Nat → Res β} {s : Scan β}
    {c : Prop} [Decidable c] (hx : x = if c then .ok () else .error .err) (hg : c → Comes g (s.outcome p e)) :
    Comes (fun n => x >>= fun _ => g n) ((Scan.need c s).outcome p e) := by
  rw [outcome_need, hx]
  split
  · exact hg ‹c›
  · exact comes_const _

theorem checkTailroom_eq (m : Message) (l : Nat) :
    checkTailroom m l = if m.cur + l ≤ m.mend + 1 then .ok () else .error .err := by
  unfold checkTailroom
  by_cases h : m.cur + l ≤ m.mend + 1
  · rw [if_pos h, if_neg (by omega)]
  · rw [if_neg h, if_pos (by omega)]

theorem overrun_comes {α : Type} (p : Mem) (e n : Nat) (a : α) :
    Comes (fun fuel => do
      let overrun ← await (dnameOverrun fuel p e n)
      if overrun then .error .err else .ok a)
      (((Scan.field n).andThen (fun _ => .done a)).outcome p e) := by
  have hv : ((Scan.field n).andThen (fun _ => .done a)).outcome p e = verdicts p e [n] >>= fun _ => .ok a := rfl
  rw [hv]
  rcases ends_or_leaves_or_cyclic p e n with h | h | h
  · simp only [verdicts, if_pos h]
    exact comes_bind (comes_await h.overrun) (comes_const _)
  · simp only [verdicts, if_neg h.not_ends, if_neg h.not_cyclic]
    exact comes_bind (comes_await h.overrun) (comes_const _)
  · simp only [verdicts, if_neg (fun h' : Ends p e n => h'.not_cyclic h), if_pos h]
    exact comes_bind_error (comes_await_none h.overrun)

theorem nameEnd_eq {c c' : Nat} (h : OwnBytes p c c') :
    nameEnd p e c = if c' ≤ c + maxNameLen ∧ c' ≤ e + 1 then some c' else none := by
  have hlt := h.lt
  simp only [nameEnd, dnameSize_eq h (Nat.lt_succ_self _)]
  by_cases hc : c' ≤ c + maxNameLen ∧ c' ≤ e + 1
  · rw [if_pos hc, if_pos (by omega)]
    exact congrArg some (by omega)
  · rw [if_neg hc, if_neg (by omega)]

theorem takeName_comes (m : Message) :
    Comes (fun fuel => takeName fuel m) ((scanName m).outcome m.data m.mend) := by
  obtain ⟨c', hc⟩ := exists_ownBytes m.data m.cur
  have hlt := hc.lt
  have hsize : Comes (fun fuel => await (dnameSize fuel m.data m.cur)) (.ok ((c' : Int) - m.cur)) :=
    comes_await ⟨m.data.length + 1, fun fuel hf => dnameSize_eq hc hf⟩
  have htail : checkTailroom m ((c' : Int) - m.cur) =
      if c' ≤ m.mend + 1 then .ok () else .error .err := by
    rw [show (c' : Int) - m.cur = ((c' - m.cur : Nat) : Int) by omega, checkTailroom_eq,
      show m.cur + (c' - m.cur) = c' by omega]
  have hcur : m.cur + ((c' : Int) - m.cur).toNat = c' := by omega
  refine comes_bind hsize ?_
  simp only [scanName, nameEnd_eq hc, htail, hcur]
  by_cases hbig : c' ≤ m.cur + maxNameLen
  · by_cases hfit : c' ≤ m.mend + 1
    · simp only [if_pos hfit, if_pos (show c' ≤ m.cur + maxNameLen ∧ c' ≤ m.mend + 1 from ⟨hbig, hfit⟩),
        if_neg (show ¬ ((c' : Int) - m.cur = 0 ∨ (c' : Int) - m.cur = -1 ∨ (c' : Int) - m.cur > maxNameLen) by omega)]
      exact overrun_comes m.data m.mend m.cur _
    · simp only [if_neg hfit, if_neg (show ¬ (c' ≤ m.cur + maxNameLen ∧ c' ≤ m.mend + 1) from fun h => hfit h.2),
        if_neg (show ¬ ((c' : Int) - m.cur = 0 ∨ (c' : Int) - m.cur = -1 ∨ (c' : Int) - m.cur > maxNameLen) by omega)]
      exact comes_const _
  · simp only [if_neg (show ¬ (c' ≤ m.cur + maxNameLen ∧ c' ≤ m.mend + 1) from fun h => hbig h.1),
      if_pos (show ((c' : Int) - m.cur = 0 ∨ (c' : Int) - m.cur = -1 ∨ (c' : Int) - m.cur > maxNameLen) by omega)]
    exact comes_const _

theorem scanName_result (h : (scanName m).result = some m') :
    m' = { m with cur := m'.cur } := by
  unfold scanName at h
  split at h
  · cases h
  · cases h
    rfl

theorem parseQuestion_comes (m : Message) :
    Comes (fun fuel => parseQuestion fuel m) ((scanQuestion m).outcome m.data m.mend) :=
  comes_andThen (takeName_comes m) (fun m' _ =>
    comes_check (checkTailroom_eq m' 4) (fun _ => comes_const _))

theorem checkRdata_comes (m : Message) (r : Resource) :
    Comes (fun fuel => checkRdata fuel m r) ((scanRdata r).outcome m.data m.mend) := by
  unfold checkRdata scanRdata
  by_cases ha : r.type = tA
  · simp only [if_pos ha, outcome_need, outcome_done, ne_eq, ite_not]
    exact comes_const _
  · simp only [if_neg ha]
    by_cases hn : r.type = tSrv ∨ r.type = tPtr
    · simp only [if_pos hn]
      exact overrun_comes m.data m.mend r.rdata ()
    · simp only [if_neg hn]
      exact comes_const _

structure Kept (m m' : Message) : Prop where
  data : m'.data = m.data
  mend : m'.mend = m.mend
  questions : m'.questions = m.questions
  answers : m'.answers = m.answers

theorem Kept.trans {m'' : Message} (h : Kept m m') (h' : Kept m' m'') : Kept m m'' :=
  ⟨h'.data.trans h.data, h'.mend.trans h.mend, h'.questions.trans h.questions, h'.answers.trans h.answers⟩

theorem kept_sortRecord (m : Message) (r : Resource) : Kept m (sortRecord m r) := by
  constructor <;> unfold sortRecord <;> repeat (first | rfl | split)

theorem parseResource_comes (m : Message) :
    Comes (fun fuel => parseResource fuel m) ((scanResource m).outcome m.data m.mend) := by
  refine comes_andThen (takeName_comes m) (fun m' hm' => ?_)
  have hm := scanName_result hm'
  have hd : m'.data = m.data := by rw [hm]
  have he : m'.mend = m.mend := by rw [hm]
  refine comes_check (checkTailroom_eq m' 10) (fun _ => ?_)
  refine comes_check (checkTailroom_eq { m' with cur := m'.cur + 10 } _) (fun _ => ?_)
  refine comes_andThen ?_ (fun _ _ => comes_const _)
  have h := checkRdata_comes { m' with cur := m'.cur + 10 + (recordAt m'.data m.cur m'.cur).rdlength }
    (recordAt m'.data m.cur m'.cur)
  simp only [hd, he] at h ⊢
  exact h

theorem andThen_result {α β : Type} {s : Scan α} {t : α → Scan β} {b : β}
    (h : (s.andThen t).result = some b) : ∃ a, s.result = some a ∧ (t a).result = some b := by
  obtain ⟨ns, _ | a⟩ := s
  · cases h
  · exact ⟨a, rfl, h⟩

theorem need_result {α : Type} {c : Prop} [Decidable c] {s : Scan α} {a : α}
    (h : (Scan.need c s).result = some a) : c ∧ s.result = some a := by
  unfold Scan.need at h
  split at h
  · exact ⟨‹c›, h⟩
  · cases h

theorem scanQuestion_kept {x : Question × Message} (h : (scanQuestion m).result = some x) : Kept m x.2 := by
  obtain ⟨m', hm', h⟩ := andThen_result h
  obtain ⟨-, h⟩ := need_result h
  cases h
  have hm := scanName_result hm'
  constructor <;> rw [hm]

theorem scanResource_kept {x : Resource × Message} (h : (scanResource m).result = some x) : Kept m x.2 := by
  obtain ⟨m', hm', h⟩ := andThen_result h
  obtain ⟨-, h⟩ := need_result h
  obtain ⟨-, h⟩ := need_result h
  obtain ⟨_, -, h⟩ := andThen_result h
  cases h
  have hm := scanName_result hm'
  refine Kept.trans ?_ (kept_sortRecord _ _)
  constructor <;> rw [hm]

section
variable {α : Type} {parse : Nat → Message → Res (α × Message)} {scan : Message → Scan (α × Message)}

theorem scanMany_kept (hk : ∀ m x, (scan m).result = some x → Kept m x.2) {n : Nat} {m : Message}
    {x : List α × Message} (h : (scanMany scan n m).result = some x) : Kept m x.2 := by
  induction n generalizing m x with
  | zero =>
    cases h
    exact ⟨rfl, rfl, rfl, rfl⟩
  | succ n ih =>
    obtain ⟨y, hy, h⟩ := andThen_result h
    obtain ⟨z, hz, h⟩ := andThen_result h
    cases h
    have htail : Kept y.2 z.2 := ih hz
    exact (hk m y hy).trans htail

theorem parseMany_comes
    (hp : ∀ m, Comes (fun fuel => parse fuel m) ((scan m).outcome m.data m.mend))
    (hk : ∀ m x, (scan m).result = some x → Kept m x.2) (n : Nat) {p : Mem} {e : Nat} {m : Message}
    (hd : m.data = p) (he : m.mend = e) :
    Comes (fun fuel => parseMany (parse fuel) n m) ((scanMany scan n m).outcome p e) := by
  induction n generalizing m with
  | zero => exact comes_const _
  | succ n ih =>
    refine comes_andThen (hd ▸ he ▸ hp m) (fun x hx => ?_)
    have hx := hk m x hx
    exact comes_andThen (ih (hx.data.trans hd) (hx.mend.trans he)) (fun _ _ => comes_const _)

end

theorem mdnsParseMessage_comes (data : Mem) (mlen : Nat) :
    Comes (fun fuel => mdnsParseMessage fuel data mlen)
      ((scanPacket data mlen).outcome (swapFlags data) (mlen - 1)) := by
  unfold mdnsParseMessage scanPacket
  rw [outcome_need]
  by_cases hlen : mlen < headerSize
  · simp only [if_pos hlen, if_neg (Nat.not_le_of_lt hlen)]
    exact comes_const _
  simp only [if_neg hlen, if_pos (Nat.le_of_not_lt hlen), outcome_need]
  by_cases hop : opcode (startMessage data mlen).data = 0
  · simp only [hop, ne_eq, not_true, if_false, if_true]
    refine comes_andThen (parseMany_comes parseQuestion_comes (fun _ _ => scanQuestion_kept) _ rfl rfl)
      (fun x hx => ?_)
    have hx := scanMany_kept (fun _ _ => scanQuestion_kept) hx
    refine comes_andThen (parseMany_comes parseResource_comes (fun _ _ => scanResource_kept) _ hx.data hx.mend)
      (fun y hy => ?_)
    have hy := scanMany_kept (fun _ _ => scanResource_kept) hy
    exact comes_andThen (parseMany_comes parseResource_comes (fun _ _ => scanResource_kept) _
      (hy.data.trans hx.data) (hy.mend.trans hx.mend))
      (fun _ _ => comes_const _)
  · simp only [hop, ne_eq, not_false_eq_true, if_true, if_false]
    exact comes_const _

end Mdns
