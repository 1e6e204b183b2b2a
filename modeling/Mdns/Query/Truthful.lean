import Mdns.Parse.Tiling
import Mdns.Query.Known

/-!
# Are the known answers true?

A known answer is read back from the message through its pointers. It has the name of the instance
only if that is directly under the monitored type, which nothing in the cache makes sure of.
-/
namespace Mdns
open Lib List Option

variable {n k : Nat} {q q₁ q' : Querier n k} {s a : Fin n} {c : Fin k} {elapsed : Nat} {st st₂ : Sched n k}

section reading
variable {p : Mem} {m : Message} {x y : Fin k × Fin n} {r : Resource} {ws : List Attempt} {ls : Labels} {off o : Nat}
  {rs rs' : List Resource} {as : List (Fin k × Fin n)}

def ServiceInstance.seconds (i : ServiceInstance n k) : Nat := i.ptrTtl / 1000 % 2 ^ 32

/-- These are the answers of the message: the header counts them, and they stand one behind the
other after the questions, up to the end. -/
structure Message.Lists (m : Message) (rs : List Resource) : Prop where
  sections : ∃ questions b, Tiles (QuestionAt m.data) headerSize questions b ∧ questions.length = getUint16 m.data 4 ∧
    Tiles (ResourceAt m.data) b rs m.cur
  count : rs.length = getUint16 m.data 6

/-- The record says, as it is read from the packet, that the instance is cached for the monitor. -/
structure KnownAnswer (q : Querier n k) (p : Mem) (x : Fin k × Fin n) (r : Resource) : Prop where
  type : r.type = tPtr
  cls : r.cls = cIn
  active : x.1 ∈ q.smonsActive
  cached : x.2 ∈ (q.smons x.1).sinsts
  owner : Expands (.packet p) r.name (plainLabels (q.smons x.1).fqst)
  target : Expands (.packet p) r.rdata (plainLabels (q.sinsts x.2).fqsn)
  whole : OwnBytes p r.rdata (r.rdata + r.rdlength)
  ttl : r.ttl = (q.sinsts x.2).seconds

/-- All answers of the message are about cached instances, no two about the same. -/
def Truthful (q : Querier n k) (m : Message) : Prop :=
  ∃ rs xs, m.Lists rs ∧ Forall₂ (KnownAnswer q m.data) xs rs ∧ (xs.map Prod.snd).Nodup

theorem Message.Lists.unique (h : m.Lists rs) (h' : m.Lists rs') : rs = rs' := by
  obtain ⟨qs, b, hq, hlen, hr⟩ := h.sections
  obtain ⟨qs', b', hq', hlen', hr'⟩ := h'.sections
  obtain ⟨-, rfl⟩ := Tiles.unique (fun _ _ _ _ _ h h' => h.unique h') hq hq' (hlen.trans hlen'.symm)
  exact (Tiles.unique (fun _ _ _ _ _ h h' => h.unique h') hr hr' (h.count.trans h'.count.symm)).1

def Refers (p : Mem) (off : Nat) (ls : Labels) : Prop := off < 16384 ∧ Expands (.packet p) off ls

theorem Refers.expands (h : Refers p off ls) (hat : At p o (pointerBytes off)) : Expands (.packet p) o ls := by
  obtain ⟨hp, hoff⟩ := pointer_at h.1 hat
  refine .jump rfl hp ?_
  show Expands (.packet p) (pointer p o) ls
  rw [hoff]
  exact h.2

theorem PointsTo.refers (h : PointsTo ws ls off) (hproper : ∀ w ∈ ws, ProperAsk w.ask)
    (hfits : datagram.load ws ≤ datagram.room)
    (hat : At p headerSize (ws.flatMap (fun w => askBytes w.ask))) : Refers p off ls := by
  obtain ⟨before, w, after, rfl, rfl, rfl⟩ := h
  constructor
  · rw [Box.load_append] at hfits
    have hroom : datagram.room = 1460 := rfl
    have hhead : headerSize = 12 := rfl
    omega
  · have hw := hproper w (mem_append_right _ (mem_cons_self ..))
    rw [flatMap_append, flatMap_cons] at hat
    have hname := hat.drop.take
    rw [← load_datagram, askBytes, append_assoc] at hname
    exact expands_encodeName hw.sizes hname.take

structure AnswerAt (q : Querier n k) (p : Mem) (x : Fin k × Fin n) (r : Resource) : Prop where
  type : r.type = tPtr
  cls : r.cls = cIn
  ttl : r.ttl = (q.sinsts x.2).seconds
  owner : Expands (.packet p) r.name (plainLabels (q.smons x.1).fqst)
  refers : Refers p (q.smons x.1).fqstOffset (plainLabels (q.smons x.1).fqst)
  short : (q.sinsts x.2).cname.length < 64
  rdlength : r.rdlength = (q.sinsts x.2).cname.length + 3
  data : At p r.rdata (dnamePutLabel (q.sinsts x.2).cname ++ pointerBytes (q.smons x.1).fqstOffset)

theorem getUint32_setUint32 {v : Nat} (h : At p o (setUint32 v)) : getUint32 p o = v % 2 ^ 32 := by
  have hmod : setUint32 v = setUint32 (v % 2 ^ 32) := by
    unfold setUint32
    simp only [List.cons.injEq, and_true]
    refine ⟨?_, ?_, ?_, ?_⟩ <;> apply UInt8.toNat_inj.mp <;> simp only [UInt8.toNat_ofNat'] <;> omega
  rw [hmod] at h
  exact getUint32_at h (Nat.mod_lt _ (by decide))

theorem answerBytes_at (hat : At p o (q.answerBytes x))
    (href : Refers p (q.smons x.1).fqstOffset (plainLabels (q.smons x.1).fqst))
    (hshort : (q.sinsts x.2).cname.length < 64) :
    ResourceAt p o (recordAt p o (o + 2)) (o + (q.answerBytes x).length) ∧ AnswerAt q p x (recordAt p o (o + 2)) := by
  have hlen : (q.answerBytes x).length = (q.sinsts x.2).cname.length + 15 := length_answerBytes q x.1 x.2
  unfold Querier.answerBytes fixedBytes at hat
  have hptr : At p o (pointerBytes (q.smons x.1).fqstOffset) := hat.take.take
  have htype : getUint16 p (o + 2) = tPtr := getUint16_at hat.take.drop.take.take (by decide)
  have hcls : getUint16 p (o + 2 + 2) = cIn := getUint16_at hat.take.drop.take.drop (by decide)
  have httl : getUint32 p (o + 2 + 4) = (q.sinsts x.2).seconds := getUint32_setUint32 hat.take.drop.drop
  have hrest : At p (o + 2 + 8) (setUint16 ((q.sinsts x.2).cname.length + 3) ++ (dnamePutLabel (q.sinsts x.2).cname ++
      pointerBytes (q.smons x.1).fqstOffset)) := by
    rw [← append_assoc]
    exact hat.drop
  have hrdlength : getUint16 p (o + 2 + 8) = (q.sinsts x.2).cname.length + 3 := getUint16_at hrest.take (by omega)
  refine ⟨⟨⟨o + 2, ownBytes_pointer (pointer_at href.1 hptr).1, rfl⟩, ?_⟩,
    htype, hcls, httl, href.expands hptr, href, hshort, hrdlength, hrest.drop⟩
  show _ = o + 2 + 10 + getUint16 p (o + 2 + 8)
  rw [hlen, hrdlength]
  omega

theorem tiles_answers (hat : At p o (as.flatMap q.answerBytes))
    (has : ∀ x ∈ as, Refers p (q.smons x.1).fqstOffset (plainLabels (q.smons x.1).fqst) ∧
      (q.sinsts x.2).cname.length < 64) :
    ∃ rs, Tiles (ResourceAt p) o rs (o + (as.flatMap q.answerBytes).length) ∧ Forall₂ (AnswerAt q p) as rs := by
  induction as generalizing o with
  | nil => exact ⟨[], .nil, .nil⟩
  | cons x as ih =>
    rw [flatMap_cons] at hat ⊢
    obtain ⟨hx, has⟩ := forall_mem_cons.mp has
    obtain ⟨hrecord, hanswer⟩ := answerBytes_at hat.take hx.1 hx.2
    obtain ⟨rs, htiles, hanswers⟩ := ih hat.drop has
    refine ⟨_ :: rs, .cons hrecord ?_, .cons hanswer hanswers⟩
    rw [length_append, ← Nat.add_assoc]
    exact htiles

theorem tiles_questions {xs : List (Labels × Nat)} (hat : At p o (xs.flatMap askBytes)) (hxs : ∀ x ∈ xs, ProperAsk x) :
    ∃ qs, Tiles (QuestionAt p) o qs (o + (xs.flatMap askBytes).length) ∧ qs.length = xs.length := by
  induction xs generalizing o with
  | nil => exact ⟨[], .nil, rfl⟩
  | cons x xs ih =>
    rw [flatMap_cons] at hat ⊢
    obtain ⟨hx, hxs⟩ := forall_mem_cons.mp hxs
    obtain ⟨qs, htiles, hlen⟩ := ih hat.drop hxs
    have hname : At p o (encodeName x.1) := hat.take.take.take
    refine ⟨⟨o, _, _⟩ :: qs, .cons ⟨rfl, _, ownBytes_encodeName hx.sizes hname, rfl, rfl, rfl⟩ ?_,
      congrArg (· + 1) hlen⟩
    have hsize : (askBytes x).length = (encodeName x.1).length + 4 := by simp [askBytes, setUint16]
    rw [length_append]
    rw [hsize] at htiles ⊢
    have hend : o + ((encodeName x.1).length + 4 + (xs.flatMap askBytes).length) =
        o + ((encodeName x.1).length + 4) + (xs.flatMap askBytes).length := by omega
    rw [hend]
    exact htiles

/-- The instance `y` is the one that the answer for `x` is about. -/
structure Names (q : Querier n k) (x y : Fin k × Fin n) : Prop where
  label : (q.sinsts x.2).cname ≠ []
  active : y.1 ∈ q.smonsActive
  cached : y.2 ∈ (q.smons y.1).sinsts
  owner : plainLabels (q.smons y.1).fqst = plainLabels (q.smons x.1).fqst
  target : plainLabels (q.sinsts y.2).fqsn = (q.sinsts x.2).cname :: plainLabels (q.smons x.1).fqst
  seconds : (q.sinsts y.2).seconds = (q.sinsts x.2).seconds

theorem AnswerAt.knownAnswer_iff (h : AnswerAt q p x r) : KnownAnswer q p y r ↔ Names q x y := by
  by_cases hlabel : (q.sinsts x.2).cname = []
  · -- an empty label ends the name before the pointer
    refine iff_of_false (fun hknown => ?_) (fun hnames => hnames.label hlabel)
    have hdata := h.data
    have hlen := h.rdlength
    rw [hlabel] at hdata hlen
    have hzero : byte p r.rdata = 0 := hdata.byte
    have hown := (ownBytes_zero hzero).unique hknown.whole
    rw [hlen] at hown
    simp at hown
  · have hl : 0 < (q.sinsts x.2).cname.length ∧ (q.sinsts x.2).cname.length < 64 :=
      ⟨length_pos_iff.mpr hlabel, h.short⟩
    have hptr : At p (r.rdata + (q.sinsts x.2).cname.length + 1) (pointerBytes (q.smons x.1).fqstOffset) := h.data.drop
    have htarget : Expands (.packet p) r.rdata ((q.sinsts x.2).cname :: plainLabels (q.smons x.1).fqst) :=
      expands_label hl h.data.take (h.refers.expands hptr)
    constructor
    · intro hknown
      exact ⟨hlabel, hknown.active, hknown.cached, hknown.owner.unique h.owner, hknown.target.unique htarget,
        hknown.ttl.symm.trans h.ttl⟩
    · intro hnames
      refine ⟨h.type, h.cls, hnames.active, hnames.cached, ?_, ?_, ?_, h.ttl.trans hnames.seconds.symm⟩
      · rw [hnames.owner]
        exact h.owner
      · rw [hnames.target]
        exact htarget
      · rw [h.rdlength]
        exact ownBytes_putLabel hl h.data.take (ownBytes_pointer (pointer_at h.refers.1 hptr).1)

theorem truthful_iff_names (hm : m.Lists rs) (has : Forall₂ (AnswerAt q m.data) as rs) :
    Truthful q m ↔ ∃ xs, Forall₂ (Names q) as xs ∧ (xs.map Prod.snd).Nodup := by
  have hforall : ∀ xs, Forall₂ (KnownAnswer q m.data) xs rs ↔ Forall₂ (Names q) as xs := by
    clear hm
    induction has with
    | nil =>
      intro xs
      rw [forall₂_nil_right_iff, forall₂_nil_left_iff]
    | cons hx _ ih =>
      intro xs
      cases xs with
      | nil => exact iff_of_false nofun nofun
      | cons y ys => rw [forall₂_cons, forall₂_cons, hx.knownAnswer_iff, ih]
  constructor
  · rintro ⟨rs', xs, hm', hxs, hnodup⟩
    obtain rfl := hm.unique hm'
    exact ⟨xs, (hforall xs).mp hxs, hnodup⟩
  · rintro ⟨xs, hxs, hnodup⟩
    exact ⟨rs, xs, hm, (hforall xs).mpr hxs, hnodup⟩

end reading

section listing
variable {ws : List Attempt} {as : List (Fin k × Fin n)} {cs : List (Fin k)} {x : Fin k × Fin n}
  {i j : ServiceInstance n k}

def Querier.leftover (q : Querier n k) (elapsed : Nat) (c : Fin k) : List (Fin n) :=
  (q.left elapsed c).filter (fun s => !(q.sinsts s).expires elapsed)

def Querier.knownOf (q : Querier n k) (elapsed : Nat) (c : Fin k) : List (Fin k × Fin n) :=
  ((q.leftover elapsed c).filter (fun s => elapsed < (q.sinsts s).ptrTtl)).map (fun s => (c, s))

def Querier.listBox (q : Querier n k) (ws : List Attempt) : Box (Fin k × Fin n) where
  size x := ptrSize (q.sinsts x.2)
  must _ := false
  room := datagram.room - datagram.load ws

def Querier.listAll (q : Querier n k) (elapsed : Nat) (ws : List Attempt) (cs : List (Fin k))
    (as : List (Fin k × Fin n)) :
    List (Fin k × Fin n) :=
  cs.foldl (fun as c =>
    if (q.smons c).nextRefresh ≤ elapsed then (q.listBox ws).fill as (q.knownOf elapsed c) else as) as

/-- The instances that are listed as known answers when so much time has passed. -/
def Querier.listed (q : Querier n k) (elapsed : Nat) : List (Fin k × Fin n) :=
  match datagram.pack [] (q.dueAttempts elapsed) with
  | some ws => q.listAll elapsed ws q.smonsActive []
  | none => []

structure Querier.Listable (q : Querier n k) (elapsed : Nat) (x : Fin k × Fin n) : Prop where
  active : x.1 ∈ q.smonsActive
  due : (q.smons x.1).nextRefresh ≤ elapsed
  leftover : x.2 ∈ q.leftover elapsed x.1

theorem listable_fill (hc : c ∈ q.smonsActive) (hdue : (q.smons c).nextRefresh ≤ elapsed)
    (has : ∀ x ∈ as, q.Listable elapsed x) :
    ∀ x ∈ (q.listBox ws).fill as (q.knownOf elapsed c), q.Listable elapsed x := by
  obtain ⟨ys, hys, heq⟩ := Box.fill_eq_append (b := q.listBox ws) as (q.knownOf elapsed c)
  rw [heq]
  refine forall_mem_append.mpr ⟨has, fun x hx => ?_⟩
  obtain ⟨s, hs, rfl⟩ := List.mem_map.mp (hys.subset hx)
  exact ⟨hc, hdue, mem_of_mem_filter hs⟩

theorem listAll_listable (hcs : ∀ c ∈ cs, c ∈ q.smonsActive) (has : ∀ x ∈ as, q.Listable elapsed x) :
    ∀ x ∈ q.listAll elapsed ws cs as, q.Listable elapsed x := by
  induction cs generalizing as with
  | nil => exact has
  | cons c cs ih =>
    obtain ⟨hc, hcs⟩ := forall_mem_cons.mp hcs
    unfold Querier.listAll
    rw [foldl_cons]
    apply ih hcs
    split
    · next hdue => exact listable_fill hc hdue has
    · exact has

theorem listed_listable (hx : x ∈ q.listed elapsed) : q.Listable elapsed x := by
  unfold Querier.listed at hx
  split at hx
  · exact listAll_listable (fun _ hc => hc) (fun _ hnil => (not_mem_nil hnil).elim) x hx
  · cases hx

theorem load_listAll_le (elapsed : Nat) (cs : List (Fin k)) (has : (q.listBox ws).load as ≤ (q.listBox ws).room) :
    (q.listBox ws).load (q.listAll elapsed ws cs as) ≤ (q.listBox ws).room := by
  induction cs generalizing as with
  | nil => exact has
  | cons c cs ih =>
    unfold Querier.listAll
    rw [foldl_cons]
    apply ih
    split
    · exact Box.load_fill_le _ has
    · exact has

theorem length_listAll_lt (q : Querier n k) (elapsed : Nat) (ws : List Attempt) (cs : List (Fin k)) :
    (q.listAll elapsed ws cs []).length < 65536 := by
  have hle : ∀ as : List (Fin k × Fin n), as.length ≤ (q.listBox ws).load as := by
    intro as
    induction as with
    | nil => exact Nat.zero_le _
    | cons x as ih =>
      have hpos : 0 < (q.listBox ws).size x := Nat.succ_pos _
      rw [Box.load_cons, length_cons]
      omega
  have hnil : (q.listBox ws).load [] ≤ (q.listBox ws).room := Nat.zero_le _
  have hload := load_listAll_le elapsed cs hnil
  have hroom : (q.listBox ws).room ≤ datagram.room := Nat.sub_le _ _
  have hmax : datagram.room < 65536 := by decide
  exact Nat.lt_of_le_of_lt ((hle _).trans (hload.trans hroom)) hmax

theorem FirstPass.turn (h : FirstPass q elapsed ws st) (hc : c ∈ q.smonsActive) (hs : s ∈ q.leftover elapsed c) :
    Turned elapsed (q.sinsts s) (st.q.sinsts s) := h.turned c hc s (mem_of_mem_filter hs)

theorem Turned.cname (h : Turned elapsed i j) : j.cname = i.cname := by
  unfold ServiceInstance.cname
  rw [h.servname]

theorem Turned.seconds (h : Turned elapsed i j) : j.seconds = (i.age elapsed).seconds := by
  unfold ServiceInstance.seconds
  rw [h.ptrTtl]
  rfl

theorem FirstPass.known_eq (h : FirstPass q elapsed ws st) (hcs : ∀ c ∈ cs, c ∈ q.smonsActive)
    (has : ∀ x ∈ as, q.Listable elapsed x) :
    st.q.known (ws.flatMap (fun w => askBytes w.ask)) cs as = q.listAll elapsed ws cs as := by
  have hsize : ∀ x, q.Listable elapsed x →
      (st.q.answerBox (ws.flatMap (fun w => askBytes w.ask))).size x = (q.listBox ws).size x := by
    intro x hx
    have hturn := h.turn hx.active hx.leftover
    refine (length_answerBytes st.q x.1 x.2).trans ?_
    show ptrSize _ = ptrSize _
    unfold ptrSize
    rw [hturn.servname]
  induction cs generalizing as with
  | nil => rfl
  | cons c cs ih =>
    obtain ⟨hc, hcs⟩ := forall_mem_cons.mp hcs
    have hanswers : st.q.answersOf c (st.q.smons c).sinsts = q.knownOf elapsed c := by
      unfold Querier.answersOf Querier.knownOf
      rw [h.members c hc]
      refine congrArg _ (filter_congr (fun s hs => ?_))
      rw [(h.turn hc hs).ptrTtl, decide_eq_decide]
      unfold subtract
      split <;> omega
    unfold Querier.known Querier.listAll
    rw [foldl_cons, foldl_cons]
    by_cases hdue : (q.smons c).nextRefresh ≤ elapsed
    · rw [if_pos hdue, if_pos ((h.due c hc).mpr hdue), hanswers]
      have hfill : (st.q.answerBox (ws.flatMap (fun w => askBytes w.ask))).fill as (q.knownOf elapsed c) =
          (q.listBox ws).fill as (q.knownOf elapsed c) := by
        refine Box.fill_congr ?_ (fun x hx => hsize x (has x hx)) (fun x hx => hsize x ?_)
        · show dataMax - headerSize - _ = _
          rw [← load_datagram]
          rfl
        · obtain ⟨s, hs, rfl⟩ := List.mem_map.mp hx
          exact ⟨hc, hdue, mem_of_mem_filter hs⟩
      rw [hfill]
      exact ih hcs (listable_fill hc hdue has)
    · rw [if_neg hdue, if_neg (fun hzero => hdue ((h.due c hc).mp hzero))]
      exact ih hcs has

end listing

section names
variable {ws : List Attempt} {x y : Fin k × Fin n} {m : Message}

/-- An answer for `x` is right about the instance `t` of the same monitor. -/
def Querier.RightAbout (q : Querier n k) (elapsed : Nat) (x : Fin k × Fin n) (t : Fin n) : Prop :=
  plainLabels (q.sinsts t).fqsn = (q.sinsts x.2).cname :: plainLabels (q.smons x.1).fqst ∧
    ((q.sinsts t).age elapsed).seconds = ((q.sinsts x.2).age elapsed).seconds

/-- Each instance that is listed has a service name that makes, in front of the monitored type, the
name of an instance with as many seconds left, and no two of them for one monitor have the same. -/
def Querier.Renders (q : Querier n k) (elapsed : Nat) : Prop :=
  (∀ x ∈ q.listed elapsed, (q.sinsts x.2).cname ≠ [] ∧ ∃ t ∈ q.leftover elapsed x.1, q.RightAbout elapsed x t) ∧
    ((q.listed elapsed).map (fun x => (x.1, (q.sinsts x.2).cname))).Nodup

instance (q : Querier n k) (elapsed : Nat) (x : Fin k × Fin n) (t : Fin n) : Decidable (q.RightAbout elapsed x t) :=
  inferInstanceAs (Decidable (_ ∧ _))

instance (q : Querier n k) (elapsed : Nat) : Decidable (q.Renders elapsed) := inferInstanceAs (Decidable (_ ∧ _))

theorem Run.servname_short {G : Guard n k} (h : Run G q) (s : Fin n) : (q.sinsts s).servname.length < 64 := by
  have hpos : ([] : List UInt8).length < 64 := by decide
  refine h.sinsts (P := fun i => i.servname.length < 64) hpos ?_ s
  intro i j hchange hi
  cases hchange with
  | blank _ => exact hpos
  | named hinfo =>
    obtain ⟨hreads, -⟩ := copyServinfo_reads hinfo
    obtain ⟨typeAt, -, -, -, -, -, hname, -⟩ := hreads.parts
    exact (length_dnameLabelToC hname).trans (by decide)
  | texted htxt =>
    rcases updateTxt_eq_some htxt with ⟨rfl, -⟩ | ⟨keyvals, raw, len, rfl, -⟩ <;> exact hi
  | hosted r a =>
    unfold takeAddress
    split <;> exact hi
  | _ => exact hi

theorem answerMonitors_smons (cs : List (Fin k)) (st : Sched n k) :
    (cs.foldl answerMonitor st).q.smonsActive = st.q.smonsActive ∧ ∀ c, ((cs.foldl answerMonitor st).q.smons c).sinsts =
      (st.q.smons c).sinsts ∧ ((cs.foldl answerMonitor st).q.smons c).fqst = (st.q.smons c).fqst := by
  induction cs generalizing st with
  | nil => exact ⟨rfl, fun _ => ⟨rfl, rfl⟩⟩
  | cons d cs ih =>
    obtain ⟨hactive, hsmons⟩ := ih (answerMonitor st d)
    have hone : (answerMonitor st d).q.smonsActive = st.q.smonsActive ∧ ∀ c, ((answerMonitor st d).q.smons c).sinsts =
        (st.q.smons c).sinsts ∧ ((answerMonitor st d).q.smons c).fqst = (st.q.smons c).fqst := by
      unfold answerMonitor
      dsimp only
      split
      · exact ⟨rfl, fun c => ⟨congrFun (field_update_same (g := ServiceMonitor.sinsts) (f := st.q.smons)
            (b := { st.q.smons d with nextRefresh := (st.q.smons d).refreshPeriod }) rfl) c,
          congrFun (field_update_same (g := ServiceMonitor.fqst) (f := st.q.smons)
            (b := { st.q.smons d with nextRefresh := (st.q.smons d).refreshPeriod }) rfl) c⟩⟩
      · exact ⟨rfl, fun _ => ⟨rfl, rfl⟩⟩
    exact ⟨hactive.trans hone.1, fun c => ⟨(hsmons c).1.trans (hone.2 c).1, (hsmons c).2.trans (hone.2 c).2⟩⟩

theorem KnownAnswer.congr {p : Mem} {r : Resource} (h : KnownAnswer q p x r) (hsinsts : q'.sinsts = q.sinsts)
    (hactive : q'.smonsActive = q.smonsActive)
    (hsmons : ∀ c, (q'.smons c).sinsts = (q.smons c).sinsts ∧ (q'.smons c).fqst = (q.smons c).fqst) :
    KnownAnswer q' p x r where
  type := h.type
  cls := h.cls
  active := hactive ▸ h.active
  cached := (hsmons x.1).1 ▸ h.cached
  owner := (hsmons x.1).2 ▸ h.owner
  target := hsinsts ▸ h.target
  whole := h.whole
  ttl := hsinsts ▸ h.ttl

theorem truthful_answerMonitors (cs : List (Fin k)) : Truthful (cs.foldl answerMonitor st).q m ↔ Truthful st.q m := by
  obtain ⟨hactive, hsmons⟩ := answerMonitors_smons cs st
  have hsinsts := (answerMonitors_frame cs st).1
  constructor
  · rintro ⟨rs, xs, hm, hxs, hnodup⟩
    exact ⟨rs, xs, hm, hxs.imp (fun _ _ hx => hx.congr hsinsts.symm hactive.symm
      (fun c => ⟨(hsmons c).1.symm, (hsmons c).2.symm⟩)), hnodup⟩
  · rintro ⟨rs, xs, hm, hxs, hnodup⟩
    exact ⟨rs, xs, hm, hxs.imp (fun _ _ hx => hx.congr hsinsts hactive hsmons), hnodup⟩

structure Survives (q : Querier n k) (elapsed : Nat) (q' : Querier n k) : Prop where
  active : q'.smonsActive = q.smonsActive
  members : ∀ c ∈ q.smonsActive, (q'.smons c).sinsts = q.leftover elapsed c
  fqst : ∀ c ∈ q.smonsActive, (q'.smons c).fqst = (q.smons c).fqst
  turned : ∀ c ∈ q.smonsActive, ∀ s ∈ q.leftover elapsed c, Turned elapsed (q.sinsts s) (q'.sinsts s)

theorem FirstPass.survives (h : FirstPass q elapsed ws st) : Survives q elapsed st.q where
  active := h.active
  members := h.members
  fqst := h.fqst
  turned _ hc _ hs := h.turn hc hs

theorem ServiceInstance.cname_length_le (i : ServiceInstance n k) : i.cname.length ≤ i.servname.length :=
  ( takeWhile_prefix _).length_le

theorem FirstPass.lists (h : FirstPass q elapsed ws st) (hshort : ∀ s, (q.sinsts s).servname.length < 64)
    (has : ∀ x ∈ q.listAll elapsed ws q.smonsActive [], q.Listable elapsed x)
    (hm : m.Answers { queryHeader with questions := ws.length } (ws.flatMap (fun w => askBytes w.ask)) st.q
      (q.listAll elapsed ws q.smonsActive [])) :
    ∃ rs, m.Lists rs ∧ Forall₂ (AnswerAt st.q m.data) (q.listAll elapsed ws q.smonsActive []) rs := by
  have hquestions := h.packs.tx.questions hm
  have hbody := hm.body_at
  have hfit := h.packs.tx.fits
  have hrefs : ∀ x ∈ q.listAll elapsed ws q.smonsActive [],
      Refers m.data (st.q.smons x.1).fqstOffset (plainLabels (st.q.smons x.1).fqst) ∧
        (st.q.sinsts x.2).cname.length < 64 := by
    intro x hx
    have hlist := has x hx
    rw [h.fqst x.1 hlist.active, (h.turn hlist.active hlist.leftover).cname]
    exact ⟨(h.points x.1 hlist.active hlist.due).refers h.packs.tx.proper hfit hbody.take,
      Nat.lt_of_le_of_lt (ServiceInstance.cname_length_le _) (hshort x.2)⟩
  obtain ⟨rs, htiles, hanswers⟩ := tiles_answers hbody.drop hrefs
  obtain ⟨qs, hqs, hlen⟩ := tiles_questions hquestions.bytes hquestions.proper
  refine ⟨rs, ⟨⟨qs, _, hqs, hlen.trans hquestions.count.symm, ?_⟩, ?_⟩, hanswers⟩
  · rw [flatMap_map]
    rw [hm.cur, length_append, ← Nat.add_assoc]
    exact htiles
  · rw [hm.counts.2.1, ← hanswers.length_eq]
    show _ = (0 + (q.listAll elapsed ws q.smonsActive []).length) % 65536
    have hlt := length_listAll_lt q elapsed ws q.smonsActive
    omega

theorem Message.Packs.lists (h : m.Packs ws) : m.Lists [] := by
  have hquestions := h.questions (h.noAnswers (queryLaunch 0 0))
  obtain ⟨qs, hqs, hlen⟩ := tiles_questions hquestions.bytes hquestions.proper
  refine ⟨⟨qs, _, hqs, hlen.trans hquestions.count.symm, ?_⟩, h.holds.counts.2.1.symm⟩
  rw [flatMap_map, h.holds.cur]
  exact .nil

theorem Spelled.expands {name : Mem} (h : Spelled name) : Expands (.plain name) 0 (plainLabels name) :=
  expands_encodeName h.sizes h.written

theorem Survives.names_iff (h : Survives q elapsed q') (hq : q.Tidy)
    (hnames : ∀ c ∈ q.smonsActive, Spelled (q.smons c).fqst)
    (hx : q.Listable elapsed x) :
    Names q' x y ↔ (q.sinsts x.2).cname ≠ [] ∧ y.1 = x.1 ∧ y.2 ∈ q.leftover elapsed x.1 ∧
      q.RightAbout elapsed x y.2 := by
  have hturn := h.turned x.1 hx.active x.2 hx.leftover
  have hfqst := h.fqst x.1 hx.active
  constructor
  · intro hn
    have hactive : y.1 ∈ q.smonsActive := h.active ▸ hn.active
    have howner := hn.owner
    rw [h.fqst y.1 hactive, hfqst] at howner
    have hsame : y.1 = x.1 := by
      have hy := (hnames y.1 hactive).expands
      rw [howner] at hy
      exact hq.distinct y.1 hactive x.1 hx.active _ hy (hnames x.1 hx.active).expands
    have hcached := hn.cached
    rw [hsame, h.members x.1 hx.active] at hcached
    have hturn' := h.turned x.1 hx.active y.2 hcached
    refine ⟨?_, hsame, hcached, ?_, ?_⟩
    · rw [← hturn.cname]
      exact hn.label
    · rw [← hturn'.fqsn, ← hturn.cname, ← hfqst]
      exact hn.target
    · rw [← hturn'.seconds, ← hturn.seconds]
      exact hn.seconds
  · rintro ⟨hlabel, hsame, hleft, htarget, hseconds⟩
    have hturn' := h.turned x.1 hx.active y.2 hleft
    refine ⟨?_, ?_, ?_, ?_, ?_, ?_⟩
    · rw [hturn.cname]
      exact hlabel
    · rw [hsame, h.active]
      exact hx.active
    · rw [hsame, h.members x.1 hx.active]
      exact hleft
    · rw [hsame]
    · rw [hturn'.fqsn, hturn.cname, hfqst]
      exact htarget
    · rw [hturn'.seconds, hturn.seconds]
      exact hseconds

theorem leftover_used (hq : q.Held) (hs : s ∈ q.leftover elapsed c) :
    s ∉ q.sinstsFree ∧ (q.sinsts s).smon = some c := by
  have hmem := (mem_left.mp (mem_of_mem_filter hs)).1
  exact (hq.members.mem_iff c s).mp hmem

theorem rightAbout_unique (hq : q.Tidy) {x' : Fin k × Fin n} {t t' : Fin n} (ht : t ∈ q.leftover elapsed x.1)
    (ht' : t' ∈ q.leftover elapsed x'.1) (h : q.RightAbout elapsed x t) (h' : q.RightAbout elapsed x' t') :
    t = t' ↔ (x.1, (q.sinsts x.2).cname) = (x'.1, (q.sinsts x'.2).cname) := by
  obtain ⟨hfree, hown⟩ := leftover_used hq.held ht
  obtain ⟨hfree', hown'⟩ := leftover_used hq.held ht'
  constructor
  · rintro rfl
    have hsame : x.1 = x'.1 := some.inj (hown.symm.trans hown')
    exact Prod.ext hsame (List.cons.inj (h.1.symm.trans h'.1)).1
  · intro heq
    obtain ⟨hsame, hlabel⟩ := Prod.mk.inj heq
    apply hq.apart.apart t t' hfree hfree'
    · rw [hown, hown', hsame]
    · rw [h.1, h'.1, hsame, hlabel]

theorem Survives.renders_iff (h : Survives q elapsed q') (hq : q.Tidy)
    (hnames : ∀ c ∈ q.smonsActive, Spelled (q.smons c).fqst) :
    (∃ xs, Forall₂ (Names q') (q.listed elapsed) xs ∧ (xs.map Prod.snd).Nodup) ↔ q.Renders elapsed := by
  -- the labels of the answers and the instances that they are about determine each other
  let About (key : Fin k × List UInt8) (t : Fin n) : Prop :=
    ∃ x, q.Listable elapsed x ∧ key = (x.1, (q.sinsts x.2).cname) ∧
    t ∈ q.leftover elapsed x.1 ∧ q.RightAbout elapsed x t
  have hunique : Relator.BiUnique About := by
    constructor
    · rintro _ t _ ⟨x, -, rfl, ht, hr⟩ ⟨x', -, rfl, ht', hr'⟩
      exact (rightAbout_unique hq ht ht' hr hr').mp rfl
    · rintro _ t t' ⟨x, -, rfl, ht, hr⟩ ⟨x', -, heq, ht', hr'⟩
      exact (rightAbout_unique hq ht ht' hr hr').mpr heq
  have hnodup : ∀ xs, Forall₂ (Names q') (q.listed elapsed) xs →
      (((q.listed elapsed).map (fun x => (x.1, (q.sinsts x.2).cname))).Nodup ↔ (xs.map Prod.snd).Nodup) := by
    intro xs hxs
    apply rel_nodup hunique
    rw [forall₂_map_left_iff, forall₂_map_right_iff]
    have hall := (forall₂_and_left (p := q.Listable elapsed) _ xs).mpr ⟨fun x hx => listed_listable hx, hxs⟩
    refine hall.imp (fun x y hxy => ?_)
    obtain ⟨-, -, hleft, hright⟩ := (h.names_iff hq hnames hxy.1).mp hxy.2
    exact ⟨x, hxy.1, rfl, hleft, hright⟩
  have hexists : (∃ xs, Forall₂ (Names q') (q.listed elapsed) xs) ↔
      ∀ x ∈ q.listed elapsed, (q.sinsts x.2).cname ≠ [] ∧ ∃ t ∈ q.leftover elapsed x.1, q.RightAbout elapsed x t := by
    rw [exists_forall₂_iff]
    refine forall₂_congr (fun x hx => ?_)
    have hiff := fun y => h.names_iff (y := y) hq hnames (listed_listable hx)
    constructor
    · rintro ⟨y, hy⟩
      obtain ⟨hlabel, -, hleft, hright⟩ := (hiff y).mp hy
      exact ⟨hlabel, y.2, hleft, hright⟩
    · rintro ⟨hlabel, t, hleft, hright⟩
      exact ⟨(x.1, t), (hiff (x.1, t)).mpr ⟨hlabel, rfl, hleft, hright⟩⟩
  unfold Querier.Renders
  rw [← hexists]
  constructor
  · rintro ⟨xs, hxs, hdistinct⟩
    exact ⟨⟨xs, hxs⟩, (hnodup xs hxs).mpr hdistinct⟩
  · rintro ⟨⟨xs, hxs⟩, hdistinct⟩
    exact ⟨xs, hxs, (hnodup xs hxs).mp hdistinct⟩

theorem listAll_nil (hws : datagram.pack [] (q.dueAttempts elapsed) = some []) :
    q.listAll elapsed [] q.smonsActive [] = [] := by
  have hnot : ∀ c ∈ q.smonsActive, ¬ (q.smons c).nextRefresh ≤ elapsed := by
    intro c hc hdue
    have hmem : (⟨(plainLabels (q.smons c).fqst, tAny), true⟩ : Attempt) ∈ q.dueAttempts elapsed := by
      refine mem_append_right _ (mem_flatMap.mpr ⟨c, hc, mem_append_left _ ?_⟩)
      unfold ServiceMonitor.attempts
      rw [if_pos hdue]
      exact mem_singleton.mpr rfl
    exact absurd ((Box.pack_mem hws).2 _ hmem rfl) not_mem_nil
  unfold Querier.listAll
  generalize q.smonsActive = cs at hnot
  induction cs with
  | nil => rfl
  | cons c cs ih =>
    obtain ⟨hc, hcs⟩ := forall_mem_cons.mp hnot
    rw [foldl_cons, if_neg hc]
    exact ih hcs

theorem truthful_iff_renders (hq : q.Tidy) (hs : q.Spelled) (hnames : ∀ c ∈ q.smonsActive, Spelled (q.smons c).fqst)
    (hshort : ∀ s, (q.sinsts s).servname.length < 64) (h : prepareQuery elapsed q = some st) :
    Truthful st.q st.q.tx ↔ q.Renders elapsed := by
  rcases prepareQuery_firstPass hq.held hs hnames h with ⟨hnone, ws, hw⟩ | ⟨ws, st₂, hfirst, hend⟩
  · have hlisted : q.listed elapsed = [] := by
      unfold Querier.listed
      rw [hnone]
    refine iff_of_true ⟨[], [], hw.lists, .nil, nodup_nil⟩ ?_
    unfold Querier.Renders
    rw [hlisted]
    exact ⟨nofun, nodup_nil⟩
  · have hlisted : q.listed elapsed = q.listAll elapsed ws q.smonsActive [] := by
      unfold Querier.listed
      rw [hfirst.packed]
    have hroom : headerSize + (ws.flatMap (fun w => askBytes w.ask)).length ≤ dataMax := by
      have hfits := hfirst.packs.tx.fits
      rw [load_datagram] at hfits
      have hbox : datagram.room = dataMax - headerSize := rfl
      have hle : headerSize ≤ dataMax := by decide
      omega
    have hlistable : ∀ x ∈ q.listAll elapsed ws q.smonsActive [], q.Listable elapsed x :=
      fun x hx => listed_listable (hlisted ▸ hx)
    rcases hend with ⟨hzero, rfl⟩ | ⟨-, hst⟩
    · -- no question, no answer
      have hnil : ws = [] := by
        have hret := hfirst.packs.ret
        rw [hzero] at hret
        exact eq_nil_of_length_eq_zero (by omega)
      subst hnil
      have hempty : q.listed elapsed = [] := hlisted.trans (listAll_nil hfirst.packed)
      refine iff_of_true ⟨[], [], hfirst.packs.tx.lists, .nil, nodup_nil⟩ ?_
      unfold Querier.Renders
      rw [hempty]
      exact ⟨nofun, nodup_nil⟩
    · rw [hst]
      have hnodup : st₂.q.smonsActive.Nodup := hfirst.active ▸ hq.held.owners.onNodup
      have hanswers := answerMonitors_answers hnodup rfl (fun _ _ => rfl) (hfirst.packs.tx.noAnswers st₂.q) hroom
      rw [hfirst.known_eq (fun c hc => hfirst.active ▸ hc) (fun _ hnil => (not_mem_nil hnil).elim),
        hfirst.active] at hanswers
      obtain ⟨rs, hlists, hread⟩ := hfirst.lists hshort hlistable hanswers
      rw [hfirst.active, truthful_answerMonitors, truthful_iff_names hlists hread, ← hlisted]
      exact hfirst.survives.renders_iff hq hnames

end names

section runs

/-- The known answers are true if the monitored names are written out and the service names of the
instances that are listed render the names of different instances; and with such names they are false in
all other cases. -/
theorem Run.truthful_iff {G : Guard n k} (h : Run G q) (hst : prepareQuery elapsed q = some st) :
    ((∀ c ∈ q.smonsActive, Spelled (q.smons c).fqst) ∧ q.Renders elapsed → Truthful st.q st.q.tx) ∧
      ((∀ c ∈ q.smonsActive, Spelled (q.smons c).fqst) → Truthful st.q st.q.tx → q.Renders elapsed) := by
  have hiff := fun hnames => truthful_iff_renders h.tidy h.spelled hnames h.servname_short hst
  exact ⟨fun hall => (hiff hall.1).mpr hall.2, fun hnames htrue => (hiff hnames).mp htrue⟩

set_option maxRecDepth 100000 in
theorem truthful_announced : ∃ (q : Querier 16 4) (st : Sched 16 4), Run fitting q ∧ prepareQuery 2000 q = some st ∧
    q.listed 2000 = [(3, 15)] ∧ Truthful st.q st.q.tx := by
  have h : ((runAll (guardedStep fitting 60) [.monitor httpType, .prepare 0,
    announce 65 1] (queryLaunch 16 4)).map (fun q =>
      decide (q.smonsActive = [3] ∧ (q.smons 3).fqst = httpType ∧ q.listed 2000 = [(3, 15)] ∧ q.Renders 2000 ∧
        (prepareQuery 2000 q).isSome))) = some true := by
    decide +kernel
  obtain ⟨q, hq, hall⟩ := map_eq_some_iff.mp h
  obtain ⟨hmons, hname, hlisted, hrenders, hcall⟩ := of_decide_eq_true hall
  obtain ⟨st, hst⟩ := isSome_iff_exists.mp hcall
  have hrun : Run fitting q := run_of_runAll hq
  exact ⟨q, st, hrun, hst, hlisted, (hrun.truthful_iff hst).1 ⟨spelled_of_httpType hmons hname, hrenders⟩⟩

/-- A PTR record of `_http._tcp.local` for the instance `a._http._tcp.x`. -/
def foreignPtr : Event := receive [wireRecord httpType tPtr 120 ([1, 97] ++ httpType.dropLast.take 11 ++ [1, 120, 0])]

set_option maxRecDepth 100000 in
/-- The instance `a._http._tcp.x` is listed as `a._http._tcp.local`. -/
theorem known_answer_false :
    ∃ (q : Querier 16 4) (st : Sched 16 4), Run fitting q ∧ prepareQuery 0 q = some st ∧ st.ret = 1 ∧
    q.listed 0 = [(3, 15)] ∧ ¬ Truthful st.q st.q.tx := by
  have h : ((runAll (guardedStep fitting 60) [.monitor httpType, foreignPtr] (queryLaunch 16 4)).map (fun q =>
      decide (q.smonsActive = [3] ∧ (q.smons 3).fqst = httpType ∧ q.listed 0 = [(3, 15)] ∧ ¬ q.Renders 0 ∧
        (prepareQuery 0 q).map Sched.ret = some 1))) = some true := by
    decide +kernel
  obtain ⟨q, hq, hall⟩ := map_eq_some_iff.mp h
  obtain ⟨hmons, hname, hlisted, hfalse, hcall⟩ := of_decide_eq_true hall
  obtain ⟨st, hst, hret⟩ := map_eq_some_iff.mp hcall
  have hrun : Run fitting q := run_of_runAll hq
  have hiff := truthful_iff_renders hrun.tidy hrun.spelled (spelled_of_httpType hmons hname) hrun.servname_short hst
  exact ⟨q, st, hrun, hst, hret, hlisted, fun htrue => hfalse (hiff.mp htrue)⟩

end runs

end Mdns
