import Mdns.Query.Alert

/-!
# A complete announcement

A response with a PTR, an SRV and an A record, and perhaps a TXT record, for an instance of a
monitored type that the cache does not have. The A record alerts the slot unless `set_ip` finds the
address in the record already.
-/
namespace Mdns
open Lib List Option

variable {n k : Nat}

/-- The records of an announcement: the instance `N` is at `host`. -/
structure Announces (m : Message) (ptr srv a : Resource) (N host : Labels) : Prop where
  response : m.qr = true
  as : m.as = [a]
  alive : ptr.ttl ≠ 0 ∧ srv.ttl ≠ 0 ∧ a.ttl ≠ 0
  type : Expands (.packet m.data) ptr.name N.tail
  points : Expands (.packet m.data) ptr.rdata N
  service : Expands (.packet m.data) srv.name N
  target : Expands (.packet m.data) (srvTarget srv) host
  address : Expands (.packet m.data) a.name host
  nonzero : getUint32 m.data a.rdata ≠ 0

def Querier.Foreign (q : Querier n k) (m : Message) (x : Resource) : Prop :=
  ∃ inst type rest, Expands (.packet m.data) x.name (inst :: type :: rest) ∧ q.monitorOf (type :: rest) = none

/-- What else may stand in the announcement: records that the querier has no monitor for, like the reverse
pointer of the host, and any number of TXT records. -/
structure Others (q : Querier n k) (m : Message) (ptr srv : Resource) (N : Labels) : Prop where
  ptrs : ∃ l l', m.ptrs = l ++ ptr :: l' ∧ ∀ x ∈ l ++ l', ∃ T, Expands (.packet m.data) x.name T ∧ q.monitorOf T = none
  srvs : ∃ l l', m.srvs = l ++ srv :: l' ∧ ∀ x ∈ l ++ l', q.Foreign m x
  txts : ∀ t ∈ m.txts, Expands (.packet m.data) t.name N ∨ q.Foreign m t

section advance
variable {mayMove : Policy n k} {live : List (Fin k)} {strict : Prop} {q q' : Querier n k}

theorem Advances.fqst (h : Advances mayMove live q q') (c : Fin k) : (q'.smons c).fqst = (q.smons c).fqst :=
  congrFun h.moves.kind c

theorem Advances.monitorOf (h : Advances mayMove live q q') (T : Labels) : q'.monitorOf T = q.monitorOf T := by
  simp only [Querier.monitorOf, h.active, h.fqst]

theorem Advances.wellNamed (h : Advances (policy strict) q.smonsActive q q') (hq : q.Sound strict) (hw : q.WellNamed) :
    q'.WellNamed := by
  refine (h.sound hq).wellNamed (fun c hc => ?_)
  rw [h.active] at hc
  rw [h.fqst]
  exact hw.monitors c hc

theorem slotOf_congr {c : Fin k} (hs : (q'.smons c).sinsts = (q.smons c).sinsts)
    (hn : ∀ t, (q'.sinsts t).fqsn = (q.sinsts t).fqsn) (N : Labels) : q'.slotOf c N = q.slotOf c N := by
  simp only [Querier.slotOf, hs, hn]

theorem arecOf_congr (ha : q'.arecsActive = q.arecsActive)
    (hn : ∀ a, (q'.arecs a).fqdn = (q.arecs a).fqdn) (H : Labels) :
    q'.arecOf H = q.arecOf H := by
  simp only [Querier.arecOf, ha, hn]

end advance

section others
variable {q q₁ : Querier n k} {m : Message} {ptr srv x : Resource} {N : Labels} {elapsed : Nat}
  {r : Option (Querier n k)}

/-- The same types are monitored, so that the same records are passed over. -/
structure SameMonitors (q q' : Querier n k) : Prop where
  wellNamed : q'.WellNamed
  monitors : ∀ T, q'.monitorOf T = q.monitorOf T

theorem Advances.sameMonitors {strict : Prop} (h : Advances (policy strict) q.smonsActive q q₁) (hq : q.Sound strict)
    (hw : q.WellNamed) : SameMonitors q q₁ := ⟨h.wellNamed hq hw, h.monitorOf⟩

theorem SameMonitors.refl (hw : q.WellNamed) : SameMonitors q q := ⟨hw, fun _ => rfl⟩

theorem SameMonitors.sinstOf (h : SameMonitors q q₁) (hx : q.Foreign m x) :
    Comes (fun fuel => sinstOf fuel q₁ m x) (some none) := by
  obtain ⟨inst, type, rest, hexp, hno⟩ := hx
  have hinst := sinstOf_comes h.wellNamed hexp
  rwa [h.monitors, hno] at hinst

theorem SameMonitors.txtStep (h : SameMonitors q q₁) (hx : q.Foreign m x) :
    Comes (fun fuel => txtStep fuel elapsed m q₁ x) (some q₁) :=
  comes_bind_some (h.sinstOf hx) (comes_const _)

theorem SameMonitors.srvStep (h : SameMonitors q q₁) (hx : q.Foreign m x) :
    Comes (fun fuel => srvStep fuel elapsed m q₁ x) (some q₁) :=
  comes_bind_some (h.sinstOf hx) (comes_const _)

theorem SameMonitors.ptrStep (h : SameMonitors q q₁)
    (hx : ∃ T, Expands (.packet m.data) x.name T ∧ q.monitorOf T = none) :
    Comes (fun fuel => ptrStep fuel elapsed (q₁, m) x) (some (q₁, m)) := by
  obtain ⟨T, hexp, hno⟩ := hx
  have hmon := findServiceMonitor_comes h.wellNamed hexp
  rw [h.monitors, hno] at hmon
  exact comes_bind_some hmon (comes_const _)

theorem Others.ptrs_comes (h : Others q m ptr srv N) (hw : q.WellNamed)
    (hptr : Comes (fun fuel => ptrStep fuel elapsed (q, m) ptr) (r.map (·, m))) (hr : ∀ q₁ ∈ r, SameMonitors q q₁) :
    Comes (fun fuel => runAll (ptrStep fuel elapsed) m.ptrs (q, m)) (r.map (·, m)) := by
  obtain ⟨l, l', hptrs, hothers⟩ := h.ptrs
  rw [hptrs]
  refine comes_runAll_among (fun x hx => (SameMonitors.refl hw).ptrStep (hothers x (mem_append_left _ hx))) hptr ?_
  rintro ⟨q₁, m₁⟩ hmem x hx
  obtain ⟨q₂, hq₂, heq⟩ := map_eq_some_iff.mp hmem
  cases heq
  exact (hr q₁ hq₂).ptrStep (hothers x (mem_append_right _ hx))

theorem Others.srvs_comes (h : Others q m ptr srv N) (hq₁ : SameMonitors q q₁)
    (hsrv : Comes (fun fuel => Mdns.srvStep fuel elapsed m q₁ srv) r) (hr : ∀ q' ∈ r, SameMonitors q q') :
    Comes (fun fuel => runAll (Mdns.srvStep fuel elapsed m) m.srvs q₁) r := by
  obtain ⟨l, l', hsrvs, hothers⟩ := h.srvs
  rw [hsrvs]
  exact comes_runAll_among (fun x hx => hq₁.srvStep (hothers x (mem_append_left _ hx))) hsrv
    (fun q' hq' x hx => (hr q' hq').srvStep (hothers x (mem_append_right _ hx)))

end others

section passes
variable {q q₁ : Querier n k} {m : Message} {ptr srv a : Resource} {N host : Labels} {proto : List UInt8} {c : Fin k}
  {s b : Fin n} {elapsed : Nat} {free : List (Fin n)} {p : Querier n k}

/-- The entry of an instance of which only the PTR record has been seen. -/
structure Bare (i : ServiceInstance n k) (c : Fin k) (N : Labels) : Prop where
  smon : i.smon = some c
  name : plainLabels i.fqsn = N
  init : i.state = .init
  arec : i.arec = none
  ipaddr : i.ipaddr = 0
  hasSrv : i.hasSrv = false

/-- After the PTR record and the TXT record: the slot is taken and nothing else has happened. -/
structure Adopted (q : Querier n k) (c : Fin k) (s : Fin n) (N : Labels) (q₁ : Querier n k) : Prop where
  sound : q₁.Sound False
  wellNamed : q₁.WellNamed
  monitors : ∀ T, q₁.monitorOf T = q.monitorOf T
  slot : q₁.slotOf c N = some s
  bare : Bare (q₁.sinsts s) c N
  arecs : q₁.arecs = q.arecs
  arecsActive : q₁.arecsActive = q.arecsActive
  arecsFree : q₁.arecsFree = q.arecsFree
  log : q₁.log = q.log

theorem slotOf_eq_none (hl : q.reg.Linked q.smonsActive)
    (hnew : ∀ t, t ∉ q.sinstsFree → plainLabels (q.sinsts t).fqsn ≠ N)
    (c : Fin k) : q.slotOf c N = none := by
  refine find?_eq_none.mpr (fun t ht => ?_)
  simpa using hnew t ((hl.members.mem_iff c t).mp ht).1

theorem ptrStep_comes {T : Labels} (elapsed : Nat) (hw : q.WellNamed) (htype : Expands (.packet m.data) ptr.name T)
    (hpoints : Expands (.packet m.data) ptr.rdata N) (hmon : q.monitorOf T = some c)
    (hslot : q.slotOf c N = none) (hfree : q.sinstsFree = s :: free)
    {info : Option (Option (ServiceInstance n k))}
    (hinfo : Comes (fun fuel => copyServinfo fuel { smon := some c } m ptr.rdata) info) :
    Comes (fun fuel => ptrStep fuel elapsed (q, m) ptr) (info.map (fun info => match info with
      | none => (q.setSinst s { smon := some c }, m)
      | some i =>
        (({ q with sinstsFree := free }.setSmon c { q.smons c with sinsts := s :: (q.smons c).sinsts }).setSinst s
          { i with ptrTtl := add32 (convertTtl ptr.ttl) elapsed }, m))) := by
  have h1 := findServiceMonitor_comes hw htype
  have h2 := findServiceInstance_comes hw (c := c) hpoints
  rw [hmon] at h1
  rw [hslot] at h2
  refine comes_bind_some h1 (comes_bind_some h2 ?_)
  simp only [hfree]
  cases info with
  | none => exact comes_bind_none hinfo
  | some info =>
    refine comes_bind_some hinfo ?_
    cases info with
    | none => exact comes_const _
    | some i => exact comes_const _

theorem adopted_of_ptrStep (elapsed : Nat) (hq : q.Sound False) (hw : q.WellNamed) (hann : Announces m ptr srv a N host)
    (hN : InstanceName N proto) (hproto : proto = tcpLabel ∨ proto = udpLabel) (hmon : q.monitorOf N.tail = some c)
    (hslot : q.slotOf c N = none) (hfree : q.sinstsFree = s :: free) {name : Mem}
    (hcopy : Comes (fun fuel => dnameCopy fuel m.data ptr.rdata) (some (name, 0))) :
    ∃ q₁, Comes (fun fuel => ptrStep fuel elapsed (q, m) ptr) (some (q₁, m)) ∧ Adopted q c s N q₁ := by
  have hinfo := copyServinfo_comes (n := n) (i := { smon := some c }) hN hann.points hcopy
  rw [if_pos hproto] at hinfo
  obtain ⟨servname, servtype, proto, domain, hinfo⟩ := hinfo
  have hcomes := ptrStep_comes elapsed hw hann.type hann.points hmon hslot hfree hinfo
  refine ⟨_, hcomes, ?_⟩
  obtain ⟨fuel, hf⟩ := hcomes
  have hadv : Advances (policy False) _ _ _ := (takesPtr_of_ptrStep (hf fuel le_rfl)).advances hq.linked hq.named
  have hname : plainLabels name = N := by
    obtain ⟨fuel, hf⟩ := hcopy
    exact (expands_of_dnameCopy (hf fuel le_rfl)).unique hann.points
  refine ⟨hadv.sound hq, hadv.wellNamed hq hw, hadv.monitorOf, ?_, ?_, rfl, rfl, rfl, rfl⟩
  · simp [Querier.slotOf, Querier.setSmon, Querier.setSinst, hname]
  · rw [setSinst_self]
    exact ⟨rfl, hname, rfl, rfl, rfl, rfl⟩

theorem Adopted.arecOf (had : Adopted q c s N q₁) (H : Labels) : q₁.arecOf H = q.arecOf H :=
  arecOf_congr had.arecsActive (fun _ => by rw [had.arecs]) H

theorem Adopted.sinstOf (had : Adopted q c s N q₁) (hN : InstanceName N proto) (hmon : q.monitorOf N.tail = some c)
    {r : Resource} (hexp : Expands (.packet m.data) r.name N) :
    Comes (fun fuel => sinstOf fuel q₁ m r) (some (some s)) := by
  obtain ⟨inst, type, domain, rest, rfl⟩ := hN.parts
  have h := sinstOf_comes had.wellNamed hexp
  have hmon₁ : q₁.monitorOf (type :: proto :: domain :: rest) = some c := (had.monitors _).trans hmon
  rwa [hmon₁, bind_some, had.slot] at h

theorem adopted_of_txtStep (elapsed : Nat) (had : Adopted q c s N q₁) (hN : InstanceName N proto) (hmon : q.monitorOf N.tail = some c)
    {t : Resource} (hexp : Expands (.packet m.data) t.name N) :
    ∃ q₂, Comes (fun fuel => txtStep fuel elapsed m q₁ t) (some q₂) ∧ Adopted q c s N q₂ := by
  obtain ⟨j, ret, hj⟩ := updateTxt_comes (q₁.sinsts s) m.data t
  have hentry : ∃ keyvals raw len, j = { q₁.sinsts s with keyvals, rawkeyvals := raw, rawkvlen := len } := by
    obtain ⟨fuel, hf⟩ := hj
    rcases updateTxt_eq_some (hf fuel le_rfl) with ⟨rfl, -⟩ | ⟨_, _, _, rfl, -⟩
    · exact ⟨_, _, _, rfl⟩
    · exact ⟨_, _, _, rfl⟩
  obtain ⟨keyvals, raw, len, rfl⟩ := hentry
  have hb := had.bare
  obtain ⟨q₂, hcomes, hr⟩ := updateSinst_comes elapsed (s := s) (u := .txt m t) (c := c)
    (comes_bind_some hj (comes_const (some (q₁.setSinst s _, ret)))) (by rw [setSinst_self]; exact hb.smon)
  have hstep : Comes (fun fuel => txtStep fuel elapsed m q₁ t) (some q₂) :=
    comes_bind_some (had.sinstOf hN hmon hexp) hcomes
  refine ⟨q₂, hstep, ?_⟩
  obtain ⟨fuel, hf⟩ := hstep
  have hadv : Advances (policy False) q₁.smonsActive q₁ q₂ := txtStep_advances had.sound.linked (hf fuel le_rfl)
  -- without an SRV record the instance is not ready
  rcases hr.init_cases (by rw [setSinst_self]; exact hb.init) with ⟨rfl, -⟩ | ⟨hready, -⟩
  · refine ⟨hadv.sound had.sound, hadv.wellNamed had.sound had.wellNamed, fun T => ?_, ?_, ?_, had.arecs,
      had.arecsActive, had.arecsFree, had.log⟩
    · rw [hadv.monitorOf, had.monitors]
    · refine (slotOf_congr (c := c) (q := q₁) ?_ (fun t => ?_) N).trans had.slot
      · rfl
      · by_cases ht : t = s
        · rw [ht, setSinst_self]
        · rw [setSinst_others _ _ _ ht]
    · rw [setSinst_self]
      exact ⟨hb.smon, hb.name, hb.init, hb.arec, hb.ipaddr, hb.hasSrv⟩
  · rw [setSinst_self, ServiceInstance.isReady] at hready
    simp [hb.hasSrv] at hready

/-- After the SRV record: the slot is on the list of the A record `b`, which was `r` before. The
user has heard of the instance, or it waits for its address. -/
structure Lodged (q : Querier n k) (s b : Fin n) (r : ARec n) (N : Labels) (q' : Querier n k) : Prop where
  sound : q'.Sound False
  wellNamed : q'.WellNamed
  monitors : ∀ T, q'.monitorOf T = q.monitorOf T
  referrer : s ∈ (q'.arecs b).sinsts
  name : plainLabels (q'.sinsts s).fqsn = N
  state : (q'.arecs b).state = r.state
  ipaddr : (q'.arecs b).ipaddr = r.ipaddr
  outcome : (Heard q q' N ∧ r.state = .resolved) ∨
    (q'.log = q.log ∧ (q'.sinsts s).state = .init ∧ (q'.sinsts s).hasSrv = true ∧ (q'.sinsts s).ipaddr = 0 ∧
      (r.state = .resolved → r.ipaddr = 0))

/-- The instance as `set_arec` and `update_srv` leave it. -/
def lodge (i : ServiceInstance n k) (r : ARec n) (b : Fin n) (srv : Resource) (elapsed : Nat) : ServiceInstance n k :=
  srvTimes { takeAddress i r with arec := some b } srv elapsed

/-- An instance that an A record gives its address is told of at once, unless the address is
zero like the one that it has. -/
theorem Reacts.lodged {q q' : Querier n k} {u : News n} {changes : Int} {i : ServiceInstance n k} {r : ARec n}
    (h : Reacts q s changes elapsed (.got u) q') (hentry : q.sinsts s = lodge i r b srv elapsed) (hst : i.state = .init)
    (hip : i.ipaddr = 0) (hch : r.state = .resolved → r.ipaddr ≠ 0 → 0 < changes) :
    (Heard q q' (plainLabels (q.sinsts s).fqsn) ∧ r.state = .resolved) ∨
    (q' = q ∧ (q.sinsts s).ipaddr = 0 ∧ (r.state = .resolved → r.ipaddr = 0)) := by
  have hinit : (q.sinsts s).state = .init := by
    rw [hentry]
    exact (sameEntry_takeAddress i r).2.1.trans hst
  by_cases hres : r.state = .resolved
  · have haddr : takeAddress i r = { i with ipaddr := r.ipaddr, hasA := true } := if_pos hres
    rcases h.init_cases hinit with ⟨hq, hle | hready⟩ | ⟨-, hheard⟩
    · have hzero : r.ipaddr = 0 := by
        by_contra hne
        exact absurd (hch hres hne) (Int.not_lt.mpr hle)
      refine .inr ⟨hq, ?_, fun _ => hzero⟩
      rw [hentry, lodge, haddr]
      exact hzero
    · rw [hentry, lodge, haddr] at hready
      cases hready
    · exact .inl ⟨hheard, hres⟩
  · have haddr : takeAddress i r = { i with hasA := false } := if_neg hres
    rcases h.init_cases hinit with ⟨hq, -⟩ | ⟨hready, -⟩
    · refine .inr ⟨hq, ?_, fun h => absurd h hres⟩
      rw [hentry, lodge, haddr]
      exact hip
    · rw [hentry, lodge, haddr] at hready
      cases hready

/-- The number of changes that `update_srv` reports. -/
def srvChanges (i : ServiceInstance n k) (m : Message) (srv : Resource) (moved : Int) : Int :=
  if (if i.port ≠ srvPort m.data srv then 1 else 0) + moved > 0 then 1 else 0

/-- An SRV record for a slot without an A record, whose host is or becomes the A record `b`: `p` is the
state in which the slot is attached to it. -/
theorem srvStep_comes (elapsed : Nat) (hinst : Comes (fun fuel => sinstOf fuel q m srv) (some (some s)))
    (httl : srv.ttl ≠ 0) (hsmon : (q.sinsts s).smon = some c) (harec : (q.sinsts s).arec = none)
    (hsinsts : p.sinsts = (q.setSinst s { q.sinsts s with port := srvPort m.data srv }).sinsts)
    (hhost : Comes (fun fuel => hostSrv fuel (q.setSinst s { q.sinsts s with port := srvPort m.data srv }) s m srv)
      (setArec p s b)) :
    ∃ q₂ moved q', Hosted p s b q₂ moved ∧ Comes (fun fuel => srvStep fuel elapsed m q srv) (some q') ∧
      (q₂.setSinst s (srvTimes (q₂.sinsts s) srv elapsed)).sinsts s = lodge (p.sinsts s) (p.arecs b) b srv elapsed ∧
      Reacts (q₂.setSinst s (srvTimes (q₂.sinsts s) srv elapsed)) s (srvChanges (q.sinsts s) m srv moved) elapsed
        (.got (.srv m srv)) q' := by
  have hentry : p.sinsts s = { q.sinsts s with port := srvPort m.data srv } := by rw [hsinsts, setSinst_self]
  obtain ⟨q₂, moved, hset⟩ := setArec_returns (q := p) (s := s) (a := b)
    (fun old hold => absurd hold (by rw [hentry]; simp [harec]))
  have hh := hosted_of_setArec hset
  rw [hset] at hhost
  have hchanges : Comes (fun fuel => sinstChanges fuel q s (.got (.srv m srv)) elapsed)
      (some (q₂.setSinst s (srvTimes (q₂.sinsts s) srv elapsed), srvChanges (q.sinsts s) m srv moved)) := by
    simp only [sinstChanges, updateSrv, if_neg httl]
    exact comes_bind_some hhost (comes_const _)
  have hentry₃ : (q₂.setSinst s (srvTimes (q₂.sinsts s) srv elapsed)).sinsts s =
      lodge (p.sinsts s) (p.arecs b) b srv elapsed := by rw [setSinst_self, hh.entry, lodge]
  have hsmon₃ : ((q₂.setSinst s (srvTimes (q₂.sinsts s) srv elapsed)).sinsts s).smon = some c := by
    rw [hentry₃]
    exact (sameEntry_takeAddress (p.sinsts s) (p.arecs b)).1.trans (by rw [hentry]; exact hsmon)
  obtain ⟨q', hcomes, hr⟩ := updateSinst_comes elapsed hchanges hsmon₃
  exact ⟨q₂, moved, q', hh, comes_bind_some hinst hcomes, hentry₃, hr⟩

/-- An SRV record whose host is or becomes the A record `b`; `p` is the state in which the slot
is attached to it. -/
theorem lodged_of_srvStep (elapsed : Nat) (had : Adopted q c s N q₁) (hN : InstanceName N proto)
    (hmon : q.monitorOf N.tail = some c)
    (hann : Announces m ptr srv a N host) (hfree : q.arecsFree ≠ [])
    (hsinsts : p.sinsts = (q₁.setSinst s { q₁.sinsts s with port := srvPort m.data srv }).sinsts)
    (hlog : p.log = q₁.log)
    (hhost : Comes (fun fuel => hostSrv fuel (q₁.setSinst s { q₁.sinsts s with port := srvPort m.data srv }) s m srv)
      (setArec p s b)) :
    ∃ q', Comes (fun fuel => srvStep fuel elapsed m q₁ srv) (some q') ∧ Lodged q s b (p.arecs b) N q' ∧
      q'.arecOf host = p.arecOf host := by
  have hb := had.bare
  have hentry : p.sinsts s = { q₁.sinsts s with port := srvPort m.data srv } := by rw [hsinsts, setSinst_self]
  obtain ⟨q₂, moved, q', hh, hstep, hentry₃, hr⟩ := srvStep_comes elapsed (had.sinstOf hN hmon hann.service)
    hann.alive.2.1 hb.smon hb.arec hsinsts hhost
  let q₃ := q₂.setSinst s (srvTimes (q₂.sinsts s) srv elapsed)
  let changes : Int := srvChanges (q₁.sinsts s) m srv moved
  obtain ⟨-, hst, hfqsn⟩ := sameEntry_takeAddress (p.sinsts s) (p.arecs b)
  have hname₃ : plainLabels (q₃.sinsts s).fqsn = N := by
    rw [hentry₃]
    exact (congrArg plainLabels hfqsn).trans (by rw [hentry]; exact hb.name)
  have hadv : Advances (policy False) q₁.smonsActive q₁ q' := by
    obtain ⟨fuel, hf⟩ := hstep
    refine srvStep_advances had.sound.linked (fun t _ =>
      ⟨fun _ _ hnil => ?_, fun _ _ _ _ h => h.elim, fun _ _ _ _ _ _ h => h.elim⟩) (hf fuel le_rfl)
    rw [had.arecsFree] at hnil
    exact absurd hnil hfree
  have hpos : (p.arecs b).state = .resolved → (p.arecs b).ipaddr ≠ 0 → 0 < changes := by
    intro hres hne
    have hmoved : moved = 1 := by
      rw [hh.ret, takeAddress, if_pos hres, if_pos]
      rw [hentry]
      exact fun h => hne (h.trans hb.ipaddr)
    have hgt : (if (q₁.sinsts s).port ≠ srvPort m.data srv then (1 : Int) else 0) + moved > 0 := by
      rw [hmoved]
      split <;> decide
    have hone : changes = 1 := if_pos hgt
    rw [hone]
    decide
  obtain ⟨⟨st, hentry'⟩, harecs, hactive, -⟩ := hr.got_frame
  have harecs' : ∀ d, q'.arecs d = { p.arecs d with sinsts := (q'.arecs d).sinsts } := by
    intro d
    rw [harecs]
    exact hh.arecs d
  have hlog₃ : q₃.log = q.log := hh.log.trans (hlog.trans had.log)
  refine ⟨q', hstep, ⟨hadv.sound had.sound, hadv.wellNamed had.sound had.wellNamed,
    fun T => (hadv.monitorOf T).trans (had.monitors T), ?_, ?_, ?_, ?_, ?_⟩, ?_⟩
  · have hrefs : (q₂.arecs b).sinsts = link (unlink p.reg.host p.reg.referrers s) b s b :=
      congrArg (fun r : Registry (Fin n) (Fin n) (Fin k) Mem => r.referrers b) hh.reg
    rw [harecs]
    show s ∈ (q₂.arecs b).sinsts
    rw [hrefs, link, Function.update_self]
    exact mem_cons_self ..
  · rw [hentry']
    exact hname₃
  · rw [harecs' b]
  · rw [harecs' b]
  · rcases hr.lodged hentry₃ (by rw [hentry]; exact hb.init) (by rw [hentry]; exact hb.ipaddr) hpos with
      ⟨hheard, hres⟩ | ⟨rfl, hzero, hres⟩
    · rw [hname₃] at hheard
      exact .inl ⟨hheard.before ⟨[], hlog₃⟩, hres⟩
    · refine .inr ⟨hlog₃, ?_, ?_, hzero, hres⟩
      · rw [hentry₃]
        exact hst.trans (by rw [hentry]; exact hb.init)
      · rw [hentry₃]
        rfl
  · refine arecOf_congr (hactive.trans ?_) (fun d => ?_) host
    · exact congrArg Registry.active hh.reg
    · rw [harecs' d]

theorem aStep_comes_lodged {r : ARec n} (hl : Lodged q s b r N q₁) (hann : Announces m ptr srv a N host)
    (hfound : q₁.arecOf host = some b) :
    ∃ q', Comes (fun fuel => aStep fuel m q₁ a) (some q') ∧
      (Heard q q' N ↔ r.state = .resolved ∨ r.ipaddr ≠ getUint32 m.data a.rdata) := by
  have hfind := findArec_comes hl.wellNamed hann.address
  rw [hfound] at hfind
  have httl := hann.alive.2.2
  obtain ⟨q', new, hq', hnew, -⟩ := updateArecRx_said (a := b) (m := m) hl.sound.linked httl
  refine ⟨q', comes_bind_some hfind (by simp only [hq']; exact comes_const _), ?_⟩
  rcases hl.outcome with ⟨hheard, hres⟩ | ⟨hlog, hst, hsrv, hzero, hres⟩
  · exact iff_of_true (hheard.after ⟨new, hnew⟩) (.inl hres)
  · have harec : (q₁.setArec b { q₁.arecs b with state := .resolved }).arecs b =
        { q₁.arecs b with state := .resolved } := setArec_self ..
    by_cases hip : r.ipaddr = getUint32 m.data a.rdata
    · -- the address is the one of the record: nobody is alerted
      have hskip : alertIp (q₁.setArec b { q₁.arecs b with state := .resolved }) b (getUint32 m.data a.rdata) =
          some (q₁.setArec b { q₁.arecs b with state := .resolved }) := by
        rw [alertIp_eq, if_pos]
        rw [harec]
        exact hl.ipaddr.trans hip
      obtain ⟨q'', hq'', hlog''⟩ := updateArecRx_of_alertIp httl hskip
      obtain rfl : q'' = q' := some.inj (hq''.symm.trans hq')
      refine iff_of_false (not_heard_of_log (hlog''.trans hlog)) ?_
      rintro (h | h)
      · exact hann.nonzero (hip.symm.trans (hres h))
      · exact h hip
    · have hreg : (q₁.setArec b { q₁.arecs b with state := .resolved }).reg = q₁.reg := reg_setArec rfl rfl
      obtain ⟨q₂, hrun, hheard⟩ := alertIp_heard (getUint32 m.data a.rdata)
        (q := q₁.setArec b { q₁.arecs b with state := .resolved }) (a := b) (s := s)
        (hreg ▸ hl.sound.linked) (by rw [harec]; exact hl.referrer) (by rw [harec])
        (by rw [harec, hl.ipaddr]; exact hip) hst hsrv (fun h => hann.nonzero (h.symm.trans hzero))
      obtain ⟨q'', hq'', hlog''⟩ := updateArecRx_of_alertIp httl hrun
      obtain rfl : q'' = q' := some.inj (hq''.symm.trans hq')
      refine iff_of_true ?_ (.inr hip)
      have hheard : Heard q₁ q₂ (plainLabels (q₁.sinsts s).fqsn) := hheard.before ⟨[], rfl⟩
      rw [hl.name] at hheard
      exact (hheard.before ⟨[], hlog⟩).after ⟨[], hlog''⟩

theorem aStep_comes_unknown (hw : q₁.WellNamed) (hann : Announces m ptr srv a N host) (hfound : q₁.arecOf host = none) :
    Comes (fun fuel => aStep fuel m q₁ a) (some q₁) := by
  have hfind := findArec_comes hw hann.address
  rw [hfound] at hfind
  exact comes_bind_some hfind (comes_const _)

end passes

section announcement
variable {q q₁ q₂ q₃ : Querier n k} {m : Message} {ptr srv a : Resource} {N host : Labels} {proto : List UInt8}
  {elapsed : Nat} {r : Option (Querier n k)}

def hostPasses (elapsed fuel : Nat) (m : Message) (a : Resource) (q : Querier n k) : Option (Querier n k) :=
  (runAll (srvStep fuel elapsed m) m.srvs q).bind (fun q => aStep fuel m q a)

theorem updateServiceCache_comes (hann : Announces m ptr srv a N host) (ho : Others q m ptr srv N) (hw : q.WellNamed)
    (hptr : Comes (fun fuel => ptrStep fuel elapsed (q, m) ptr) (some (q₁, m))) (hq₁ : SameMonitors q q₁)
    (htxt : Comes (fun fuel => runAll (txtStep fuel elapsed m) m.txts q₁) (some q₂))
    (hsrv : Comes (fun fuel => hostPasses elapsed fuel m a q₂) r) :
    Comes (fun fuel => updateServiceCache fuel elapsed q m) r := by
  have hptrs := ho.ptrs_comes hw (r := some q₁) hptr (fun q' hq' => by cases hq'; exact hq₁)
  simp only [updateServiceCache, hann.response, if_true]
  refine comes_bind_some hptrs ?_
  simp only [hann.as, runAll_singleton]
  exact comes_bind_some htxt hsrv

/-- What the host of an announcement needs: an A record that is resolved or has another address,
or else a target whose copy is the name of the host. -/
def HostReady (q : Querier n k) (m : Message) (srv a : Resource) (host : Labels) : Prop :=
  match q.arecOf host with
  | some b => (q.arecs b).state = .resolved ∨ (q.arecs b).ipaddr ≠ getUint32 m.data a.rdata
  | none => ∃ fuel name ret, dnameCopy fuel m.data (srvTarget srv) = some (name, ret) ∧ plainLabels name = host

theorem stable_dnameCopy (p : Mem) (src : Nat) : Stable none (fun fuel => dnameCopy fuel p src) := stable_loop _ _

theorem comes_of_dnameCopy {p : Mem} {src fuel : Nat} {r : Mem × Int} (h : dnameCopy fuel p src = some r) :
    Comes (fun fuel => dnameCopy fuel p src) (some r) := comes_loop h

theorem hostPasses_comes {q' : Querier n k} (ho : Others q m ptr srv N) (hq₂ : SameMonitors q q₂)
    (hsrv : Comes (fun fuel => srvStep fuel elapsed m q₂ srv) (some q')) (hq' : SameMonitors q q')
    (ha : Comes (fun fuel => aStep fuel m q' a) r) : Comes (fun fuel => hostPasses elapsed fuel m a q₂) r :=
  comes_bind_some (ho.srvs_comes hq₂ hsrv (fun q hq => by cases hq; exact hq')) ha

section host
variable {c : Fin k} {s : Fin n} (had : Adopted q c s N q₂) (hN : InstanceName N proto)
  (hmon : q.monitorOf N.tail = some c)
  (hann : Announces m ptr srv a N host) (ho : Others q m ptr srv N)
include had hN hmon hann ho

theorem host_known (elapsed : Nat) (hfree : q.arecsFree ≠ []) {b : Fin n} (hb : q.arecOf host = some b) :
    ∃ q', Comes (fun fuel => hostPasses elapsed fuel m a q₂) (some q') ∧
      (Heard q q' N ↔ (q.arecs b).state = .resolved ∨ (q.arecs b).ipaddr ≠ getUint32 m.data a.rdata) := by
  have hfind := findArec_comes had.wellNamed hann.target
  rw [had.arecOf, hb] at hfind
  have hhost : Comes (fun fuel => hostSrv fuel (q₂.setSinst s { q₂.sinsts s with port := srvPort m.data srv }) s m srv)
      (setArec (q₂.setSinst s { q₂.sinsts s with port := srvPort m.data srv }) s b) :=
    comes_bind_some hfind (comes_const _)
  obtain ⟨q₃, hsrv, hl, hfound⟩ := lodged_of_srvStep elapsed had hN hmon hann hfree rfl rfl hhost
  have hfound : q₃.arecOf host = some b :=
    hfound.trans ((had.arecOf host).trans hb)
  obtain ⟨q', ha, hiff⟩ := aStep_comes_lodged hl hann hfound
  have hrec : (q₂.setSinst s { q₂.sinsts s with port := srvPort m.data srv }).arecs b = q.arecs b :=
    congrFun had.arecs b
  rw [hrec] at hiff
  exact ⟨q', hostPasses_comes ho ⟨had.wellNamed, had.monitors⟩ hsrv ⟨hl.wellNamed, hl.monitors⟩ ha, hiff⟩

theorem host_copied (elapsed : Nat) (hfree : q.arecsFree ≠ []) (hb : q.arecOf host = none) {fqdn : Mem} {ret : Int}
    (hcopy : Comes (fun fuel => dnameCopy fuel m.data (srvTarget srv)) (some (fqdn, ret))) :
    ∃ q', Comes (fun fuel => hostPasses elapsed fuel m a q₂) (some q') ∧
      (Heard q q' N ↔ plainLabels fqdn = host) := by
  have hfind := findArec_comes had.wellNamed hann.target
  rw [had.arecOf, hb] at hfind
  obtain ⟨b, free, hcons⟩ := exists_cons_of_ne_nil hfree
  let q₃ := q₂.setSinst s { q₂.sinsts s with port := srvPort m.data srv }
  let p := { q₃ with arecsFree := free, arecsActive := b :: q₃.arecsActive }.setArec b { sinsts := [], fqdn }
  have hhost : Comes (fun fuel => hostSrv fuel q₃ s m srv) (setArec p s b) := by
    refine comes_bind_some hfind ?_
    have hcons₃ : q₃.arecsFree = b :: free := had.arecsFree.trans hcons
    simp only [hcons₃]
    exact comes_bind_some hcopy (comes_const _)
  obtain ⟨q₄, hsrv, hl, hfound⟩ := lodged_of_srvStep elapsed (p := p) (b := b) had hN hmon hann hfree rfl rfl hhost
  have hrec : p.arecs b = { sinsts := [], fqdn } := setArec_self ..
  rw [hrec] at hl
  by_cases hname : plainLabels fqdn = host
  · have hhead : p.arecOf host = some b := find?_cons_of_pos (by rw [hrec]; exact decide_eq_true hname)
    obtain ⟨q', ha, hiff⟩ := aStep_comes_lodged hl hann (hfound.trans hhead)
    exact ⟨q', hostPasses_comes ho ⟨had.wellNamed, had.monitors⟩ hsrv ⟨hl.wellNamed, hl.monitors⟩ ha,
      iff_of_true (hiff.mpr (.inr hann.nonzero.symm)) hname⟩
  · have hnone : p.arecOf host = none := by
      refine find?_eq_none.mpr (fun d hd => ?_)
      rw [decide_eq_true_eq]
      by_cases hdb : d = b
      · rw [hdb, hrec]
        exact hname
      · have hmem : d ∈ q₂.arecsActive := (mem_cons.mp hd).resolve_left hdb
        have hsame : p.arecs d = q.arecs d := (Function.update_of_ne hdb ..).trans (congrFun had.arecs d)
        rw [had.arecsActive] at hmem
        rw [hsame]
        simpa using find?_eq_none.mp hb d hmem
    refine ⟨q₄, hostPasses_comes ho ⟨had.wellNamed, had.monitors⟩ hsrv ⟨hl.wellNamed, hl.monitors⟩
      (aStep_comes_unknown hl.wellNamed hann (hfound.trans hnone)), ?_⟩
    rcases hl.outcome with ⟨-, hres⟩ | ⟨hlog, -⟩
    · cases hres
    · exact iff_of_false (not_heard_of_log hlog) hname

theorem host_hangs (hfree : q.arecsFree ≠ []) (hb : q.arecOf host = none)
    (hcopy : Comes (fun fuel => dnameCopy fuel m.data (srvTarget srv)) none) :
    Comes (fun fuel => hostPasses elapsed fuel m a q₂) none := by
  have hfind := findArec_comes had.wellNamed hann.target
  rw [had.arecOf, hb] at hfind
  obtain ⟨b, free, hcons⟩ := exists_cons_of_ne_nil hfree
  have hhost : Comes (fun fuel => hostSrv fuel (q₂.setSinst s { q₂.sinsts s with port := srvPort m.data srv }) s m srv)
      none := by
    refine comes_bind_some hfind ?_
    have hcons₃ : (q₂.setSinst s { q₂.sinsts s with port := srvPort m.data srv }).arecsFree = b :: free :=
      had.arecsFree.trans hcons
    simp only [hcons₃]
    exact comes_bind_none hcopy
  have hchanges : Comes (fun fuel => sinstChanges fuel q₂ s (.got (.srv m srv)) elapsed) none := by
    simp only [sinstChanges, updateSrv, if_neg hann.alive.2.1]
    exact comes_bind_none hhost
  have hupdate : Comes (fun fuel => updateSinst fuel q₂ s (.got (.srv m srv)) elapsed) none := comes_bind_none hchanges
  have hsrv : Comes (fun fuel => srvStep fuel elapsed m q₂ srv) none :=
    comes_bind_some (had.sinstOf hN hmon hann.service) (hupdate.map (Option.map Prod.fst))
  exact comes_bind_none (ho.srvs_comes ⟨had.wellNamed, had.monitors⟩ hsrv (fun q hq => by cases hq))

theorem host_decides (elapsed : Nat) (hfree : q.arecsFree ≠ []) :
    ∃ r, Comes (fun fuel => hostPasses elapsed fuel m a q₂) r ∧
      ((∃ q', r = some q' ∧ Heard q q' N) ↔ HostReady q m srv a host) := by
  unfold HostReady
  cases hb : q.arecOf host with
  | some b =>
    obtain ⟨q', hcomes, hiff⟩ := host_known had hN hmon hann ho elapsed hfree hb
    exact ⟨some q', hcomes, by simpa using hiff⟩
  | none =>
    obtain ⟨r, hcopy⟩ := (stable_dnameCopy m.data (srvTarget srv)).exists_comes
    cases r with
    | none =>
      refine ⟨none, host_hangs had hN hmon hann ho hfree hb hcopy, iff_of_false nofun ?_⟩
      rintro ⟨fuel, name, ret, h, -⟩
      exact nomatch (comes_of_dnameCopy h).unique hcopy
    | some r =>
      obtain ⟨q', hcomes, hiff⟩ := host_copied had hN hmon hann ho elapsed hfree hb hcopy
      refine ⟨some q', hcomes, ?_⟩
      rw [show (∃ q'', some q' = some q'' ∧ Heard q q'' N) ↔ Heard q q' N by simp, hiff]
      constructor
      · intro hname
        obtain ⟨fuel, hf⟩ := hcopy
        exact ⟨fuel, r.1, r.2, hf fuel le_rfl, hname⟩
      · rintro ⟨fuel, name, ret, h, hname⟩
        rw [← some.inj ((comes_of_dnameCopy h).unique hcopy)]
        exact hname

end host

theorem txts_comes_adopted (elapsed : Nat) {c : Fin k} {s : Fin n} {ts : List Resource} (hN : InstanceName N proto)
    (hmon : q.monitorOf N.tail = some c)
    (hts : ∀ t ∈ ts, Expands (.packet m.data) t.name N ∨ q.Foreign m t) (had : Adopted q c s N q₁) :
    ∃ q₂, Comes (fun fuel => runAll (txtStep fuel elapsed m) ts q₁) (some q₂) ∧ Adopted q c s N q₂ := by
  induction ts generalizing q₁ with
  | nil => exact ⟨q₁, comes_const _, had⟩
  | cons t ts ih =>
    obtain ⟨ht, hts⟩ := forall_mem_cons.mp hts
    rcases ht with hexp | hforeign
    · obtain ⟨q₂, hstep, had₂⟩ := adopted_of_txtStep elapsed had hN hmon hexp
      obtain ⟨q₃, hrest, had₃⟩ := ih hts had₂
      exact ⟨q₃, comes_runAll_cons hstep hrest, had₃⟩
    · obtain ⟨q₃, hrest, had₃⟩ := ih hts had
      exact ⟨q₃, comes_runAll_cons (SameMonitors.txtStep ⟨had.wellNamed, had.monitors⟩ hforeign) hrest, had₃⟩

theorem unadopted_not_heard (hq : q.Sound False) (hw : q.WellNamed)
    (hann : Announces m ptr srv a N host) (ho : Others q m ptr srv N)
    (hN : InstanceName N proto) (hnew : ∀ t, t ∉ q.sinstsFree → plainLabels (q.sinsts t).fqsn ≠ N)
    {c : Fin k} {s : Fin n}
    (hfree : s ∈ q.sinstsFree)
    (hptr : Comes (fun fuel => ptrStep fuel elapsed (q, m) ptr) (some (q.setSinst s { smon := some c }, m))) :
    ∃ q', Comes (fun fuel => updateServiceCache fuel elapsed q m) (some q') ∧ ¬ Heard q q' N := by
  let q₁ := q.setSinst s { smon := some c }
  have hadv : Advances (policy False) q.smonsActive q q₁ := by
    obtain ⟨fuel, hf⟩ := hptr
    exact (takesPtr_of_ptrStep (hf fuel le_rfl)).advances hq.linked hq.named
  have hq₁ := hadv.sound hq
  have hw₁ := hadv.wellNamed hq hw
  have hnew₁ : ∀ t, t ∉ q₁.sinstsFree → plainLabels (q₁.sinsts t).fqsn ≠ N := by
    intro t ht
    have hts : t ≠ s := by
      rintro rfl
      exact ht hfree
    rw [setSinst_others _ _ _ hts]
    exact hnew t ht
  have hinst : ∀ {r : Resource}, Expands (.packet m.data) r.name N →
    Comes (fun fuel => sinstOf fuel q₁ m r) (some none) := by
    intro r hexp
    obtain ⟨inst, type, domain, rest, rfl⟩ := hN.parts
    have h := sinstOf_comes hw₁ hexp
    simpa only [slotOf_eq_none hq₁.linked hnew₁, bind_fun_none] using h
  have hsame : SameMonitors q q₁ := hadv.sameMonitors hq hw
  have htxt : Comes (fun fuel => runAll (txtStep fuel elapsed m) m.txts q₁) (some q₁) := by
    refine comes_runAll_stays (fun t ht => ?_)
    rcases ho.txts t ht with hexp | hforeign
    · exact comes_bind_some (hinst hexp) (comes_const _)
    · exact hsame.txtStep hforeign
  have hsrv : Comes (fun fuel => srvStep fuel elapsed m q₁ srv) (some q₁) :=
    comes_bind_some (hinst hann.service) (comes_const _)
  have hsrvs := ho.srvs_comes hsame hsrv (fun q hq => by cases hq; exact hsame)
  cases hfound : q₁.arecOf host with
  | none =>
    exact ⟨q₁, updateServiceCache_comes hann ho hw hptr hsame htxt
      (comes_bind_some hsrvs (aStep_comes_unknown hw₁ hann hfound)), not_heard_of_log rfl⟩
  | some b =>
    have hfind := findArec_comes hw₁ hann.address
    rw [hfound] at hfind
    obtain ⟨q', new, hq', hlog, hsaid⟩ := updateArecRx_said (a := b) (m := m) hq₁.linked hann.alive.2.2
    have ha : Comes (fun fuel => aStep fuel m q₁ a) (some q') :=
      comes_bind_some hfind (by simp only [hq']; exact comes_const _)
    refine ⟨q', updateServiceCache_comes hann ho hw hptr hsame htxt (comes_bind_some hsrvs ha),
      not_heard_of_names hlog ?_⟩
    intro report hreport hname
    obtain ⟨t, ht, hfqsn⟩ := hsaid report hreport
    rw [hfqsn] at hname
    exact hnew₁ t ((hq₁.linked.referrers.mem_iff b t).mp ht).1 hname

/-- The call returns, and during it the user is told that the instance is discovered. -/
def Discovers (elapsed : Nat) (q : Querier n k) (m : Message) (N : Labels) : Prop :=
  ∃ q', Comes (fun fuel => updateServiceCache fuel elapsed q m) (some q') ∧ Heard q q' N

theorem discovers_iff (h : Comes (fun fuel => updateServiceCache fuel elapsed q m) r) :
    Discovers elapsed q m N ↔ ∃ q', r = some q' ∧ Heard q q' N :=
  exists_congr (fun _ => and_congr_left (fun _ => ⟨fun h' => h.unique h', fun h' => h' ▸ h⟩))

/-- The name of the instance can be copied, its protocol is one of the two, and its host is ready. -/
structure Acceptable (q : Querier n k) (m : Message) (ptr srv a : Resource) (proto : List UInt8)
    (host : Labels) : Prop where
  copied : ∃ fuel name, dnameCopy fuel m.data ptr.rdata = some (name, 0)
  proto : proto = tcpLabel ∨ proto = udpLabel
  host : HostReady q m srv a host

/-- An announcement of a new instance of a monitored type, while a slot and an A record are free. -/
structure Announcement (q : Querier n k) (m : Message) (ptr srv a : Resource) (N host : Labels) (proto : List UInt8) :
    Prop where
  names : ∀ c ∈ q.smonsActive, WfName (q.smons c).fqst
  records : Announces m ptr srv a N host
  others : Others q m ptr srv N
  name : InstanceName N proto
  monitored : ∃ c ∈ q.smonsActive, plainLabels (q.smons c).fqst = N.tail
  fresh : ∀ t, t ∉ q.sinstsFree → plainLabels (q.sinsts t).fqsn ≠ N
  slot : q.sinstsFree ≠ []
  arec : q.arecsFree ≠ []

theorem Announcement.discovers_iff_acceptable (h : Announcement q m ptr srv a N host proto) (hq : q.Sound False)
    (elapsed : Nat) : Discovers elapsed q m N ↔ Acceptable q m ptr srv a proto host := by
  have hann := h.records
  have ho := h.others
  have hN := h.name
  have hw := hq.wellNamed h.names
  obtain ⟨s, free, hfree⟩ := exists_cons_of_ne_nil h.slot
  have hsome : (q.monitorOf N.tail).isSome := by
    obtain ⟨c, hc, hT⟩ := h.monitored
    exact find?_isSome.mpr ⟨c, hc, decide_eq_true hT⟩
  obtain ⟨c, hmon⟩ := isSome_iff_exists.mp hsome
  have hslot := slotOf_eq_none hq.linked h.fresh c
  have hfailed : Comes (fun fuel => copyServinfo (n := n) fuel { smon := some c } m ptr.rdata) (some none) →
      ¬ Discovers elapsed q m N := by
    intro hinfo
    obtain ⟨q', hcomes, hnot⟩ := unadopted_not_heard hq hw hann ho hN h.fresh (by rw [hfree]; exact mem_cons_self ..)
      (ptrStep_comes elapsed hw hann.type hann.points hmon hslot hfree hinfo)
    rw [discovers_iff hcomes]
    simpa using hnot
  obtain ⟨r, hcopy⟩ := (stable_dnameCopy m.data ptr.rdata).exists_comes
  cases r with
  | none =>
    -- the name is copied for ever
    have hptr := ptrStep_comes elapsed hw hann.type hann.points hmon hslot hfree (comes_bind_none hcopy)
    have hnone : Comes (fun fuel => updateServiceCache fuel elapsed q m) none := by
      simp only [updateServiceCache, hann.response, if_true]
      exact comes_bind_none (ho.ptrs_comes hw (r := none) hptr (fun q hq => by cases hq))
    rw [discovers_iff hnone]
    refine iff_of_false (by simp) ?_
    intro hacc
    obtain ⟨fuel, name, h⟩ := hacc.copied
    cases (comes_of_dnameCopy h).unique hcopy
  | some r =>
    obtain ⟨name, ret⟩ := r
    have hret : ret = 0 ∨ ret = -1 := by
      obtain ⟨fuel, hf⟩ := hcopy
      exact dnameCopy_ret (hf fuel le_rfl)
    rcases hret with rfl | rfl
    · by_cases hproto : proto = tcpLabel ∨ proto = udpLabel
      · obtain ⟨q₁, hptr, had⟩ := adopted_of_ptrStep elapsed hq hw hann hN hproto hmon hslot hfree hcopy
        have hsame : SameMonitors q q₁ := ⟨had.wellNamed, had.monitors⟩
        obtain ⟨q₂, htxt, had⟩ := txts_comes_adopted elapsed hN hmon ho.txts had
        obtain ⟨r, hcomes, hiff⟩ := host_decides had hN hmon hann ho elapsed h.arec
        rw [discovers_iff (updateServiceCache_comes hann ho hw hptr hsame htxt hcomes), hiff]
        refine ⟨fun hhost => ⟨?_, hproto, hhost⟩, fun h => h.host⟩
        obtain ⟨fuel, hf⟩ := hcopy
        exact ⟨fuel, name, hf fuel le_rfl⟩
      · have hinfo := copyServinfo_comes (n := n) (i := { smon := some c }) hN hann.points hcopy
        rw [if_neg hproto] at hinfo
        exact iff_of_false (hfailed hinfo) (fun h => hproto h.proto)
    · refine iff_of_false (hfailed (copyServinfo_comes_failed hcopy)) ?_
      intro hacc
      obtain ⟨fuel, name', h⟩ := hacc.copied
      cases (comes_of_dnameCopy h).unique hcopy

end announcement

section examples
variable {q : Querier n k} {m : Message} {ptr srv a : Resource} {N host : Labels} {proto : List UInt8}

/-- The conditions of an announcement, as a test that reads the names. -/
def readsAs (p : Mem) (off : Nat) (N : Labels) : Bool := decodeName (.packet p) 20 off == some N

def announcementTest (q : Querier n k) (m : Message) (other ptr srv a : Resource) (N host : Labels) : Bool :=
  q.smonsActive.all (fun c => decodeName (.plain (q.smons c).fqst) 20 0 == some (plainLabels (q.smons c).fqst)) &&
  (m.ptrs == [other, ptr] && m.srvs == [srv] && m.txts == [] &&
    (decodeName (.packet m.data) 20 other.name).any (fun T => q.monitorOf T == none)) &&
  (m.qr && m.as == [a] && ptr.ttl != 0 && srv.ttl != 0 && a.ttl != 0 && readsAs m.data ptr.name N.tail
    && readsAs m.data ptr.rdata N &&
    readsAs m.data srv.name N && readsAs m.data (srvTarget srv) host && readsAs m.data a.name host &&
    getUint32 m.data a.rdata != 0) &&
  q.smonsActive.any (fun c => plainLabels (q.smons c).fqst == N.tail) &&
  (List.finRange n).all (fun t => q.sinstsFree.contains t || plainLabels (q.sinsts t).fqsn != N) &&
  !q.sinstsFree.isEmpty && !q.arecsFree.isEmpty

theorem expands_of_readsAs {p : Mem} {off : Nat} (h : readsAs p off N = true) : Expands (.packet p) off N :=
  expands_of_decodeName (beq_iff_eq.mp h)

theorem announcement_of_test {other : Resource} (h : announcementTest q m other ptr srv a N host = true)
    (hN : InstanceName N proto) :
    Announcement q m ptr srv a N host proto := by
  simp only [announcementTest, Bool.and_eq_true, List.all_eq_true, List.any_eq_true, beq_iff_eq, bne_iff_ne,
    Bool.or_eq_true, contains_iff_mem, Bool.not_eq_true', isEmpty_eq_false_iff, Option.any_eq_true] at h
  obtain ⟨⟨⟨⟨⟨⟨hnames, ⟨⟨hptrs, hsrvs⟩, htxts⟩, T, hT, hno⟩, hrec⟩, hmon⟩, hfresh⟩, hslot⟩, harec⟩ := h
  obtain ⟨⟨⟨⟨⟨⟨⟨⟨⟨⟨hqr, has⟩, httl1⟩, httl2⟩, httl3⟩, h1⟩, h2⟩, h3⟩, h4⟩, h5⟩, hnz⟩ := hrec
  refine ⟨fun c hc => expands_of_decodeName (hnames c hc), ?_,
    ⟨⟨[other], [], hptrs, ?_⟩, ⟨[], [], hsrvs, nofun⟩, ?_⟩, hN, hmon,
    fun t ht => ?_, hslot, harec⟩
  · exact ⟨hqr, has, ⟨httl1, httl2, httl3⟩, expands_of_readsAs h1, expands_of_readsAs h2,
      expands_of_readsAs h3, expands_of_readsAs h4, expands_of_readsAs h5, hnz⟩
  · intro x hx
    obtain rfl := mem_singleton.mp hx
    exact ⟨T, expands_of_decodeName hT, hno⟩
  · rw [htxts]
    exact nofun
  · exact (hfresh t (mem_finRange t)).resolve_left ht

/-- `1.0.0.10.in-addr.arpa`. -/
def reverseName : Mem := [1, 49, 1, 48, 1, 48, 2, 49, 48, 7, 105, 110, 45, 97, 100, 100, 114, 4, 97, 114, 112, 97, 0]

/-- The instance of one letter at the host `A` with the address 10.0.0.1, and the reverse pointer to `A`. -/
def announcePacket (inst : UInt8) : Mem :=
  packetOf [wireRecord httpType tPtr 120 [1, inst, 0xC0, 12], httpSrv 65, hostA 65 1,
    wireRecord reverseName tPtr 120 [1, 65, 0]]

/-- `inst._http._tcp.local`. -/
def httpInstance (inst : UInt8) : Labels := [inst] :: httpName.tail

theorem instanceName_http (inst : UInt8) : InstanceName (httpInstance inst) tcpLabel :=
  ⟨⟨_, _, _, _, rfl⟩, by simp [httpInstance, httpName, maxLabelLen]⟩

/-- A test of the state before the packet of `inst` and of the parsed packet. -/
def testAt (evs : List Event) (inst : UInt8)
    (test : Querier 16 4 → Message → Resource → Resource → Resource → Bool) : Bool :=
  match runAll (guardedStep fitting 60) evs (queryLaunch 16 4),
      mdnsParseMessage 60 (announcePacket inst) (announcePacket inst).length with
  | some q, .ok m => match m.ptrs, m.srvs, m.as with
    | [other, ptr], [srv], [a] => announcementTest q m other ptr srv a (httpInstance inst) [[65]] && test q m ptr srv a
    | _, _, _ => false
  | _, _ => false

theorem exists_of_testAt {evs : List Event} {inst : UInt8}
    {test : Querier 16 4 → Message → Resource → Resource → Resource → Bool} (h : testAt evs inst test = true) :
    ∃ q m ptr srv a, runAll (guardedStep fitting 60) evs (queryLaunch 16 4) = some q ∧
      mdnsParseMessage 60 (announcePacket inst) (announcePacket inst).length = .ok m ∧
      Announcement q m ptr srv a (httpInstance inst) [[65]] tcpLabel ∧ test q m ptr srv a = true := by
  unfold testAt at h
  split at h
  · next q m hq hm =>
    split at h
    · next other ptr srv a _ _ _ =>
      obtain ⟨hann, htest⟩ := Bool.and_eq_true_iff.mp h
      exact ⟨q, m, ptr, srv, a, hq, hm, announcement_of_test hann (instanceName_http inst), htest⟩
    · cases h
  · cases h

/-- In every state that is reached without an SRV record that finds no place for its host, an
announcement is discovered at once exactly when it is acceptable. -/
theorem announced_discovers_iff {elapsed : Nat} (hrun : Run fitting q) (h : Announcement q m ptr srv a N host proto) :
    Discovers elapsed q m N ↔ Acceptable q m ptr srv a proto host :=
  h.discovers_iff_acceptable (hrun.sound fitting_hosts) elapsed

set_option maxRecDepth 100000 in
/-- The first instance of a host that nobody has heard of. -/
theorem announced_discovers_iff_first :
    ∃ (q : Querier 16 4) (m : Message) (ptr srv a : Resource), Run fitting q ∧
      Announcement q m ptr srv a (httpInstance 97) [[65]] tcpLabel ∧ Discovers 1 q m (httpInstance 97) := by
  have h : testAt [.monitor httpType] 97 (fun q m ptr srv _ => q.arecOf [[65]] == none &&
      (dnameCopy 60 m.data ptr.rdata).any (fun r => r.2 == 0) &&
      (dnameCopy 60 m.data (srvTarget srv)).any (fun r => plainLabels r.1 == [[65]])) = true := by decide +kernel
  obtain ⟨q, m, ptr, srv, a, hq, -, hann, htest⟩ := exists_of_testAt h
  simp only [Bool.and_eq_true, beq_iff_eq, Option.any_eq_true] at htest
  obtain ⟨⟨hnone, ⟨name, ret⟩, hptr, rfl⟩, ⟨host, ret'⟩, htarget, hhost⟩ := htest
  have hready : HostReady q m srv a [[65]] := by
    rw [HostReady, hnone]
    exact ⟨60, host, ret', htarget, hhost⟩
  exact ⟨q, m, ptr, srv, a, run_of_runAll hq, hann,
    (announced_discovers_iff (run_of_runAll hq) hann).mpr ⟨⟨60, name, hptr⟩, .inl rfl, hready⟩⟩

set_option maxRecDepth 100000 in
/-- The A record of the host `A` is being refreshed when a second instance at `A` is announced: the
address is the one that the record still has, so that nobody is alerted. -/
theorem announced_discovers_fails :
    ∃ (q : Querier 16 4) (m : Message) (ptr srv a : Resource),
      runAll (step 60) [.monitor httpType, .response (announcePacket 97) (announcePacket 97).length 1, .prepare 192000]
        (queryLaunch 16 4) = some q ∧
      mdnsParseMessage 60 (announcePacket 98) (announcePacket 98).length = .ok m ∧
      Announcement q m ptr srv a (httpInstance 98) [[65]] tcpLabel ∧ ¬ Discovers 1 q m (httpInstance 98) := by
  have h : testAt [.monitor httpType, .response (announcePacket 97) (announcePacket 97).length 1, .prepare 192000] 98
      (fun q m _ _ a => (q.arecOf [[65]]).any (fun b =>
        decide ((q.arecs b).state = .querying ∧ (q.arecs b).ipaddr = getUint32 m.data a.rdata))) =
          true := by decide +kernel
  obtain ⟨q, m, ptr, srv, a, hq, hm, hann, htest⟩ := exists_of_testAt h
  obtain ⟨b, hb, hbad⟩ := (Option.any_eq_true _ _).mp htest
  obtain ⟨hst, hip⟩ := of_decide_eq_true hbad
  refine ⟨q, m, ptr, srv, a, runAll_mono (fun _ _ _ => step_of_guardedStep) hq, hm, hann, ?_⟩
  rw [hann.discovers_iff_acceptable ((run_of_runAll hq).sound fitting_hosts)]
  intro hacc
  have hready := hacc.host
  rw [HostReady, hb] at hready
  rcases hready with h | h
  · rw [hst] at h
    cases h
  · exact h hip

end examples

end Mdns
