import Mdns.Lib.Pack
import Mdns.Query.Goodbye

/-!
# The questions of a query

`prepare_query` packs the questions that are due into a packet. A question for which there is no
room is left out, and that of a monitor ends the query.
-/
namespace Mdns
open Lib List

variable {n k : Nat} {q q₁ q' : Querier n k} {s a : Fin n} {c : Fin k} {elapsed : Nat}

section names

structure Spelled (name : Mem) : Prop where
  sizes : ∀ l ∈ plainLabels name, 0 < l.length ∧ l.length < 64
  written : At name 0 (encodeName (plainLabels name))
  short : (encodeName (plainLabels name)).length < 65536

theorem spelled_encodeName {ls : Labels} {g : Mem} (hl : ∀ l ∈ ls, 0 < l.length ∧ l.length < 64)
    (hlen : (encodeName ls).length < 65536) : Spelled (encodeName ls ++ g) := by
  have hat : At (encodeName ls ++ g) 0 (encodeName ls) := ⟨[], g, by simp, rfl⟩
  have hlabels : plainLabels (encodeName ls ++ g) = ls := plainLabels_eq (expands_encodeName hl hat)
  constructor
  · rw [hlabels]
    exact hl
  · rw [hlabels]
    exact hat
  · rw [hlabels]
    exact hlen

theorem spelled_of_dnameCopy {fuel src : Nat} {p name : Mem} {ret : Int} (h : dnameCopy fuel p src = some (name, ret)) :
    Spelled name := by
  have hlen := dnameCopy_length h
  obtain ⟨ls, g, rfl, hl⟩ := dnameCopy_name h
  refine spelled_encodeName hl ?_
  rw [length_append] at hlen
  unfold maxNameLen at hlen
  omega

theorem Spelled.nameBytes {name : Mem} (h : Spelled name) : nameBytes name = encodeName (plainLabels name) :=
  nameBytes_encodeName h.sizes h.written h.short

structure Querier.Spelled (q : Querier n k) : Prop where
  arecs : ∀ a ∈ q.arecsActive, Mdns.Spelled (q.arecs a).fqdn
  sinsts : ∀ s, s ∉ q.sinstsFree → Mdns.Spelled (q.sinsts s).fqsn

theorem Querier.Spelled.mono (h : q.Spelled) (hactive : q'.arecsActive ⊆ q.arecsActive)
    (hfqdn : ∀ a, (q'.arecs a).fqdn = (q.arecs a).fqdn) (hfree : ∀ s, s ∉ q'.sinstsFree → s ∉ q.sinstsFree)
    (hfqsn : ∀ s, s ∉ q'.sinstsFree → (q'.sinsts s).fqsn = (q.sinsts s).fqsn) : q'.Spelled where
  arecs a ha := by
    rw [hfqdn a]
    exact h.arecs a (hactive ha)
  sinsts s hs := by
    rw [hfqsn s hs]
    exact h.sinsts s (hfree s hs)

theorem Querier.Spelled.set {i : ServiceInstance n k} (h : q.Spelled) (hi : i.fqsn = (q.sinsts s).fqsn) :
    (q.setSinst s i).Spelled :=
  h.mono (List.Subset.refl _) (fun _ => rfl) (fun _ ht => ht)
    (fun t _ => congrFun (field_update_same (g := ServiceInstance.fqsn) (f := q.sinsts) hi) t)

theorem closeMonitor_active (h : closeMonitor q c = some q') : q'.arecsActive.Sublist q.arecsActive := by
  unfold closeMonitor at h
  simp only [Option.bind_eq_bind, Option.bind_eq_some_iff, Option.pure_def, Option.some.injEq] at h
  obtain ⟨active, -, q₁, h₁, rfl⟩ := h
  have hall : q₁.arecsActive.Sublist q.arecsActive :=
    runAll_keeps (I := fun q' : Querier n k => q'.arecsActive.Sublist q.arecsActive)
      (fun _ _ _ hs hsub => (cleaned_of_cleanupSinst hs).proceeds.active.trans hsub) h₁ (.refl _)
  exact hall

theorem Effect.spelled {ok : Mem → Prop} (h : Effect ok q q') (hq : q.Held) (hs : q.Spelled) : q'.Spelled := by
  cases h with
  | sends _ => exact ⟨hs.arecs, hs.sinsts⟩
  | reports _ => exact ⟨hs.arecs, hs.sinsts⟩
  | renews _ hp => exact hs.set hp.fqsn
  | @resolves a r _ _ hf =>
    exact hs.mono (List.Subset.refl _) (fun b => congrFun (field_update_same (g := ARec.fqdn) (f := q.arecs) hf) b)
      (fun _ ht => ht) (fun _ _ => rfl)
  | schedules _ _ _ _ => exact ⟨hs.arecs, hs.sinsts⟩
  | @cleans s _ hclean =>
    have hcl := cleaned_of_cleanupSinst hclean
    refine hs.mono hcl.proceeds.active.subset hcl.proceeds.fqdn ?_ (fun t _ => hcl.proceeds.fqsn t)
    intro t ht
    rw [hcl.free] at ht
    exact not_mem_of_not_mem_cons ht
  | @hosts s a _ _ _ hh =>
    obtain ⟨-, -, hf⟩ := sameEntry_takeAddress (q.sinsts s) (q.arecs a)
    have hset := hs.set (s := s) (i := { takeAddress (q.sinsts s) (q.arecs a) with arec := some a }) hf
    refine hset.mono ?_ (fun b => by rw [hh.arecs b]; rfl) (fun t ht => by rwa [hh.free] at ht)
      (fun t _ => by rw [hh.sinsts]; rfl)
    have hactive : q'.arecsActive = q.arecsActive := congrArg Registry.active hh.reg
    rw [hactive]
    exact List.Subset.refl _
  | abandons s => exact hs.set rfl
  | @enlists a free _ _ _ fqdn _ hcopy hfree =>
    refine ⟨fun b hb => ?_, hs.sinsts⟩
    by_cases hba : b = a
    · rw [hba, setArec_self]
      exact spelled_of_dnameCopy hcopy
    · show Mdns.Spelled (Function.update q.arecs a _ b).fqdn
      rw [Function.update_of_ne hba]
      exact hs.arecs b (mem_of_ne_of_mem hba hb)
  | @blanks s free c hfree =>
    refine ⟨hs.arecs, fun t ht => ?_⟩
    have hts : t ≠ s := by
      rintro rfl
      exact ht (show t ∈ q.sinstsFree by rw [hfree]; exact mem_cons_self ..)
    rw [setSinst_others _ s _ hts]
    exact hs.sinsts t ht
  | @adopts s free c i _ m off ptrTtl hc hinst hfree hinfo =>
    obtain ⟨name, _, _, _, _, hcopy, rfl⟩ := copyServinfo_eq_some hinfo
    refine ⟨hs.arecs, fun t ht => ?_⟩
    by_cases hts : t = s
    · rw [hts, setSinst_self]
      exact spelled_of_dnameCopy hcopy
    · rw [setSinst_others _ s _ hts]
      refine hs.sinsts t ?_
      rw [hfree]
      exact not_mem_cons_of_ne_of_not_mem hts ht
  | begins _ _ _ => exact ⟨hs.arecs, hs.sinsts⟩
  | @closes c _ hclose =>
    obtain ⟨hr, -⟩ := closeMonitor_eq_some hq hclose
    have hkept := fun t => closeMonitor_kept hq hclose (t := t)
    exact hs.mono (closeMonitor_active hclose).subset (fun a => by rw [hr.arecs a]) (fun t ht => (hkept t ht).1)
      (fun t ht => by rw [(hkept t ht).2])

theorem Run.spelled {G : Guard n k} (h : Run G q) : q.Spelled := by
  have hnew : (queryLaunch n k).Held ∧ (queryLaunch n k).Spelled :=
    ⟨Run.held (G := G) .launch, nofun, fun s hs => absurd (mem_reverse.mpr (mem_finRange s)) hs⟩
  exact (h.keeps (P := fun q => q.Held ∧ q.Spelled) hnew (fun _ _ he hq => ⟨he.held hq.1, he.spelled hq.1 hq.2⟩)).2

theorem spelled_httpType : Spelled httpType :=
  show Spelled (encodeName httpName.tail ++ []) from spelled_encodeName (by decide) (by decide)

theorem spelled_of_httpType {c : Fin k} (hmons : q.smonsActive = [c]) (hname : (q.smons c).fqst = httpType) :
    ∀ d ∈ q.smonsActive, Spelled (q.smons d).fqst := by
  intro d hd
  rw [hmons] at hd
  rw [mem_singleton.mp hd, hname]
  exact spelled_httpType

end names

section message
variable {m m' : Message} {x y : Labels × Nat} {xs ys : List (Labels × Nat)} {u v : Mem}

def askBytes (x : Labels × Nat) : Mem := encodeName x.1 ++ setUint16 x.2 ++ setUint16 cIn

structure ProperAsk (x : Labels × Nat) : Prop where
  sizes : ∀ l ∈ x.1, 0 < l.length ∧ l.length < 64
  type : x.2 < 65536

/-- These are the questions of the message: the header counts them, and they stand behind it. -/
structure Message.Questions (m : Message) (xs : List (Labels × Nat)) : Prop where
  count : getUint16 m.data 4 = xs.length
  bytes : At m.data headerSize (xs.flatMap askBytes)
  proper : ∀ x ∈ xs, ProperAsk x

theorem encodeName_append_inj {as bs : Labels} (ha : ∀ l ∈ as, 0 < l.length ∧ l.length < 64)
    (hb : ∀ l ∈ bs, 0 < l.length ∧ l.length < 64) (h : encodeName as ++ u = encodeName bs ++ v) : as = bs ∧ u = v := by
  have hsize : ∀ l : List UInt8, l.length < 64 → (UInt8.ofNat l.length).toNat = l.length := by
    intro l hl
    rw [UInt8.toNat_ofNat']
    omega
  induction as generalizing bs with
  | nil =>
    cases bs with
    | nil => exact ⟨rfl, (List.cons.inj h).2⟩
    | cons l bs =>
      have hl := hb l (mem_cons_self ..)
      have hzero : (0 : UInt8) = UInt8.ofNat l.length := (List.cons.inj h).1
      have := congrArg UInt8.toNat hzero
      rw [hsize l hl.2] at this
      exact absurd this.symm (by simpa using Nat.ne_of_gt hl.1)
  | cons l as ih =>
    obtain ⟨hl, has⟩ := forall_mem_cons.mp ha
    cases bs with
    | nil =>
      have hzero : UInt8.ofNat l.length = (0 : UInt8) := (List.cons.inj h).1
      have := congrArg UInt8.toNat hzero
      rw [hsize l hl.2] at this
      exact absurd this (by simpa using Nat.ne_of_gt hl.1)
    | cons l' bs =>
      obtain ⟨hl', hbs⟩ := forall_mem_cons.mp hb
      rw [encodeName_cons, encodeName_cons, append_assoc, append_assoc] at h
      have hlen : l.length = l'.length := by
        have := congrArg UInt8.toNat (List.cons.inj h).1
        rwa [hsize l hl.2, hsize l' hl'.2] at this
      obtain ⟨hlabel, hrest⟩ := append_inj (List.cons.inj h).2 hlen
      obtain ⟨rfl, rfl⟩ := ih has hbs hrest
      exact ⟨by rw [hlabel], rfl⟩

theorem setUint16_inj {v w : Nat} (hv : v < 65536) (hw : w < 65536) (h : setUint16 v = setUint16 w) : v = w := by
  simp only [setUint16, List.cons.injEq, and_true] at h
  have hhigh := congrArg UInt8.toNat h.1
  have hlow := congrArg UInt8.toNat h.2
  simp only [UInt8.toNat_ofNat'] at hhigh hlow
  omega

theorem askBytes_append_inj (hx : ProperAsk x) (hy : ProperAsk y)
    (h : askBytes x ++ u = askBytes y ++ v) : x = y ∧ u = v := by
  unfold askBytes at h
  rw [append_assoc, append_assoc, append_assoc, append_assoc] at h
  obtain ⟨hname, h⟩ := encodeName_append_inj hx.sizes hy.sizes h
  obtain ⟨htype, h⟩ := append_inj h rfl
  exact ⟨Prod.ext hname (setUint16_inj hx.type hy.type htype), (append_inj h rfl).2⟩

theorem flatMap_askBytes_inj (hlen : xs.length = ys.length) (hx : ∀ x ∈ xs, ProperAsk x) (hy : ∀ y ∈ ys, ProperAsk y)
    (h : xs.flatMap askBytes ++ u = ys.flatMap askBytes ++ v) : xs = ys := by
  induction xs generalizing ys with
  | nil => exact (eq_nil_of_length_eq_zero hlen.symm).symm
  | cons x xs ih =>
    cases ys with
    | nil => cases hlen
    | cons y ys =>
      obtain ⟨hx, hxs⟩ := forall_mem_cons.mp hx
      obtain ⟨hy, hys⟩ := forall_mem_cons.mp hy
      rw [flatMap_cons, flatMap_cons, append_assoc, append_assoc] at h
      obtain ⟨rfl, hrest⟩ := askBytes_append_inj hx hy h
      rw [ih (Nat.succ.inj hlen) hxs hys hrest]

theorem Message.Questions.unique (h : m.Questions xs) (h' : m.Questions ys) : xs = ys := by
  obtain ⟨front, back, heq, hfront⟩ := h.bytes
  obtain ⟨front', back', heq', hfront'⟩ := h'.bytes
  rw [heq, append_assoc, append_assoc] at heq'
  have htail := (append_inj heq' (hfront.trans hfront'.symm)).2
  exact flatMap_askBytes_inj (h.count.symm.trans h'.count) h.proper h'.proper htail

end message

section due

structure Attempt where
  ask : Labels × Nat
  must : Bool

def datagram : Box Attempt where
  size x := (askBytes x.ask).length
  must := Attempt.must
  room := dataMax - headerSize

/-- The A record asks for its address, or is given up, when so much time has passed. -/
def ARec.asks (r : ARec n) (elapsed : Nat) : Bool :=
  r.state = .init || (r.nextRefresh ≤ elapsed && (r.state = .resolved || 5 ≤ r.ttlPercent))

def ARec.givenUp (r : ARec n) (elapsed : Nat) : Bool :=
  r.state = .querying && (r.nextRefresh ≤ elapsed && r.ttlPercent < 5)

def ServiceInstance.asks (i : ServiceInstance n k) (elapsed : Nat) : Bool := i.nextRefresh ≤ elapsed && 5 ≤ i.ttlPercent

def ARec.attempts (r : ARec n) (elapsed : Nat) : List Attempt :=
  if r.asks elapsed then [⟨(plainLabels r.fqdn, tA), false⟩] else []

def ServiceInstance.attempts (i : ServiceInstance n k) (elapsed : Nat) : List Attempt :=
  if i.asks elapsed then [⟨(plainLabels i.fqsn, tAny), false⟩] else []

def ServiceMonitor.attempts (mon : ServiceMonitor n) (elapsed : Nat) : List Attempt :=
  if mon.nextRefresh ≤ elapsed then [⟨(plainLabels mon.fqst, tAny), true⟩] else []

def Querier.evicted (q : Querier n k) (elapsed : Nat) (s : Fin n) : Bool :=
  q.arecsActive.any (fun a => (q.arecs a).givenUp elapsed && (q.sinsts s).arec = some a)

/-- The instances that a monitor has left when the A records have been looked at. -/
def Querier.left (q : Querier n k) (elapsed : Nat) (c : Fin k) : List (Fin n) :=
  (q.smons c).sinsts.filter (fun s => !q.evicted elapsed s)

def Querier.round (q : Querier n k) (elapsed : Nat) (c : Fin k) (slots : List (Fin n)) : List Attempt :=
  (q.smons c).attempts elapsed ++ slots.flatMap (fun s => (q.sinsts s).attempts elapsed)

def Querier.dueAttempts (q : Querier n k) (elapsed : Nat) : List Attempt :=
  q.arecsActive.flatMap (fun a => (q.arecs a).attempts elapsed) ++
    q.smonsActive.flatMap (fun c => q.round elapsed c (q.left elapsed c))

variable {m : Message} {ws : List Attempt} {name : Mem} {type : Nat}

structure Message.Packs (m : Message) (ws : List Attempt) : Prop where
  holds : m.Holds { queryHeader with questions := ws.length } (ws.flatMap (fun x => askBytes x.ask))
  proper : ∀ x ∈ ws, ProperAsk x.ask
  fits : datagram.load ws ≤ datagram.room

theorem packs_mdnsQueryInit (m : Message) : (mdnsQueryInit m).Packs [] := ⟨holds_mdnsQueryInit m, nofun, Nat.zero_le _⟩

theorem load_datagram (ws : List Attempt) : datagram.load ws = (ws.flatMap (fun x => askBytes x.ask)).length := by
  rw [length_flatMap]
  rfl

theorem Spelled.questionBytes (h : Spelled name) (type : Nat) :
    questionBytes name type = askBytes (plainLabels name, type) := by
  rw [Mdns.questionBytes, h.nameBytes]
  rfl

theorem Message.Packs.ask (hm : m.Packs ws) (hn : Spelled name) (htype : type < 65536) (must : Bool) :
    (datagram.load ws + datagram.size ⟨(plainLabels name, type), must⟩ ≤ datagram.room →
      ∃ m', mdnsAddQuestion m name type cIn = some m' ∧ m'.Packs (ws ++ [⟨(plainLabels name, type), must⟩])) ∧
    (¬ datagram.load ws + datagram.size ⟨(plainLabels name, type), must⟩ ≤ datagram.room →
      mdnsAddQuestion m name type cIn = none) := by
  obtain ⟨hroom, hfull⟩ := appends_question name type m _ _ hm.holds
  rw [hm.holds.cur, ← load_datagram, hn.questionBytes type] at hroom hfull
  have hsize : datagram.size ⟨(plainLabels name, type), must⟩ = (askBytes (plainLabels name, type)).length := rfl
  have hbox : datagram.room = dataMax - headerSize := rfl
  have hle : headerSize ≤ dataMax := by decide
  constructor
  · intro hfits
    obtain ⟨m', hask, hm'⟩ := hroom (by omega)
    refine ⟨m', hask, ?_, ?_, ?_⟩
    · simpa [Header.plus] using hm'
    · intro x hx
      rcases mem_append.mp hx with hx | hx
      · exact hm.proper x hx
      · cases mem_singleton.mp hx
        exact ⟨hn.sizes, htype⟩
    · rw [Box.load_snoc]
      exact hfits
  · intro hfits
    exact hfull (by omega)

theorem Message.Packs.offer (hm : m.Packs ws) (hn : Spelled name) (htype : type < 65536) :
    ∃ ws', datagram.pack ws [⟨(plainLabels name, type), false⟩] = some ws' ∧
      ((mdnsAddQuestion m name type cIn).getD m).Packs ws' ∧
      ws'.length = ws.length + if (mdnsAddQuestion m name type cIn).isSome then 1 else 0 := by
  obtain ⟨hroom, hfull⟩ := hm.ask hn htype false
  rw [Box.pack_cons]
  by_cases hfits : datagram.load ws + datagram.size ⟨(plainLabels name, type), false⟩ ≤ datagram.room
  · obtain ⟨m', hask, hm'⟩ := hroom hfits
    rw [if_pos hfits, hask]
    exact ⟨_, rfl, hm', by simp⟩
  · rw [if_neg hfits, hfull hfits]
    exact ⟨_, rfl, hm, by simp⟩

end due

end Mdns
