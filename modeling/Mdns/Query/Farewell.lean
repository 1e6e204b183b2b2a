import Mdns.Query.Keys

/-!
# Farewells

A PTR record with a TTL of 0 takes out the instance that it names, but one for an instance that is
not in the cache puts it there. On the keys of the cache a goodbye is a toggle.
-/
namespace Mdns
open Lib List

variable {n k : Nat} {q q₁ q' : Querier n k} {s : Fin n} {c : Fin k} {fuel elapsed : Nat} {m : Message}
  {r ptr : Resource}

section farewells

/-- A slot in use of which the user knows. As long as it is in use, the user knows of it. -/
def Querier.Shows (q : Querier n k) (s : Fin n) : Prop := s ∉ q.sinstsFree ∧ (q.sinsts s).state ≠ .init

/-- The instance of a slot is taken out of the cache, and the user is told if he knows of it. -/
structure Dies (q : Querier n k) (s : Fin n) (q' : Querier n k) : Prop where
  used : s ∉ q.sinstsFree
  types : SameTypes q q'
  free : q'.sinstsFree = s :: q.sinstsFree
  others : ∀ t, t ≠ s → q'.sinsts t = q.sinsts t
  silent : (q.sinsts s).state = .init → q'.log = q.log
  told : (q.sinsts s).state ≠ .init → ∃ e : Report n, e.slot = some s ∧ e.status = .disappeared ∧
    e.fqsn = (q.sinsts s).fqsn ∧ q'.log = e :: q.log

theorem Cleaned.types (h : Cleaned q s q') : SameTypes q q' :=
  ⟨h.smonsActive, fun c => by rw [h.smons c]⟩

theorem not_free_of_cleanupSinst (hq : q.Held) (h : cleanupSinst q s = some q') : s ∉ q.sinstsFree := by
  obtain ⟨c, -, hmem⟩ := cleanupSinst_member h
  exact ((hq.members.mem_iff c s).mp hmem).1

theorem dies_of_cleanup (hq : q.Held) (hclean : cleanupSinst q s = some q₁)
    (h : (q₁.sinsts s).state = .init ∧ q' = q₁ ∨ (q₁.sinsts s).state ≠ .init ∧ callbackOn q₁ s .disappeared = some q') :
    Dies q s q' := by
  have hcl := cleaned_of_cleanupSinst hclean
  have hused := not_free_of_cleanupSinst hq hclean
  have hentry := hcl.entry
  rw [hentry] at h
  rcases h with ⟨hst, rfl⟩ | ⟨hst, hcb⟩
  · exact ⟨hused, hcl.types, hcl.free, fun t ht => hcl.others ht, fun _ => hcl.log, fun hne => absurd hst hne⟩
  · obtain ⟨c, -, rfl⟩ := callbackOn_eq_some.mp hcb
    refine ⟨hused, ⟨hcl.types.active, hcl.types.fqst⟩, hcl.free, fun t ht => hcl.others ht,
      fun hinit => absurd hinit hst, ?_⟩
    intro _
    refine ⟨_, rfl, rfl, ?_, congrArg (List.cons _) hcl.log⟩
    show (q₁.sinsts s).fqsn = _
    rw [hentry]

theorem dies_of_sayGoodbye (hq : q.Held) (hbye : sayGoodbye q s = some q₁) (hclean : cleanupSinst q₁ s = some q') :
    Dies q s q' := by
  have hcl := cleaned_of_cleanupSinst hclean
  have hheld : q₁.Held := Effects.held (sayGoodbye_effects hbye) hq
  have hused := not_free_of_cleanupSinst hheld hclean
  unfold sayGoodbye at hbye
  split at hbye
  · next hst =>
    cases hbye
    exact ⟨hused, hcl.types, hcl.free, fun t ht => hcl.others ht, fun _ => hcl.log, fun hne => absurd hst hne⟩
  · next hst =>
    obtain ⟨c, -, rfl⟩ := callbackOn_eq_some.mp hbye
    exact ⟨hused, ⟨hcl.types.active, hcl.types.fqst⟩, hcl.free, fun t ht => hcl.others ht,
      fun hinit => absurd hinit hst, fun _ => ⟨_, rfl, rfl, rfl, hcl.log⟩⟩

/-- The callbacks between two states are those for the instances that the user knew of before and
does not know of any more, one for each. -/
structure Farewells (q q' : Querier n k) : Prop where
  log : ∃ new, q'.log = new ++ q.log ∧ (∀ e ∈ new, e.status = .disappeared) ∧
    ∀ s, (q.Shows s → ¬ q'.Shows s → (new.filter (fun e => e.slot = some s)).map Report.fqsn = [(q.sinsts s).fqsn]) ∧
      ((q.Shows s → q'.Shows s) → new.filter (fun e => e.slot = some s) = [])
  keeps : ∀ s, q'.Shows s → q.Shows s ∧ (q'.sinsts s).fqsn = (q.sinsts s).fqsn

theorem farewells_of_silent (hlog : q'.log = q.log) (hshows : ∀ s, q'.Shows s ↔ q.Shows s)
    (hname : ∀ s, q'.Shows s → (q'.sinsts s).fqsn = (q.sinsts s).fqsn) : Farewells q q' where
  log := ⟨[], hlog, nofun, fun s => ⟨fun hs hs' => absurd ((hshows s).mpr hs) hs', fun _ => rfl⟩⟩
  keeps s hs := ⟨(hshows s).mp hs, hname s hs⟩

theorem Farewells.refl (q : Querier n k) : Farewells q q := farewells_of_silent rfl (fun _ => Iff.rfl) (fun _ _ => rfl)

theorem Farewells.trans (h : Farewells q q₁) (h' : Farewells q₁ q') : Farewells q q' := by
  obtain ⟨new, hlog, hall, hslots⟩ := h.log
  obtain ⟨new', hlog', hall', hslots'⟩ := h'.log
  refine ⟨⟨new' ++ new, ?_, ?_, ?_⟩, ?_⟩
  · rw [hlog', hlog, append_assoc]
  · intro e he
    rcases mem_append.mp he with he | he
    · exact hall' e he
    · exact hall e he
  · intro s
    rw [filter_append]
    constructor
    · intro hs hs'
      by_cases hmid : q₁.Shows s
      · -- it is the later part that tells of it
        rw [(hslots s).2 (fun _ => hmid), append_nil, (hslots' s).1 hmid hs', (h.keeps s hmid).2]
      · rw [(hslots' s).2 (fun hcon => absurd hcon hmid), nil_append]
        exact (hslots s).1 hs hmid
    · intro hstays
      have hfirst : q.Shows s → q₁.Shows s := fun hs => (h'.keeps s (hstays hs)).1
      have hsecond : q₁.Shows s → q'.Shows s := fun hs => hstays (h.keeps s hs).1
      rw [(hslots s).2 hfirst, (hslots' s).2 hsecond, append_nil]
  · intro s hs
    obtain ⟨hmid, hname'⟩ := h'.keeps s hs
    obtain ⟨hfirst, hname⟩ := h.keeps s hmid
    exact ⟨hfirst, hname'.trans hname⟩

theorem Dies.shows (h : Dies q s q') (t : Fin n) : q'.Shows t ↔ q.Shows t ∧ t ≠ s := by
  unfold Querier.Shows
  rw [h.free, mem_cons, not_or]
  constructor
  · rintro ⟨⟨hne, hused⟩, hst⟩
    rw [h.others t hne] at hst
    exact ⟨⟨hused, hst⟩, hne⟩
  · rintro ⟨⟨hused, hst⟩, hne⟩
    rw [h.others t hne]
    exact ⟨⟨hne, hused⟩, hst⟩

theorem Dies.farewells (h : Dies q s q') : Farewells q q' := by
  have hkeeps : ∀ t, q'.Shows t → q.Shows t ∧ (q'.sinsts t).fqsn = (q.sinsts t).fqsn := by
    intro t ht
    obtain ⟨ht, hne⟩ := (h.shows t).mp ht
    exact ⟨ht, by rw [h.others t hne]⟩
  by_cases hst : (q.sinsts s).state = .init
  · have hnot : ¬ q.Shows s := fun hs => hs.2 hst
    have hshows : ∀ t, q'.Shows t ↔ q.Shows t := by
      intro t
      rw [h.shows t]
      refine and_iff_left_of_imp ?_
      rintro ht rfl
      exact hnot ht
    exact farewells_of_silent (h.silent hst) hshows (fun t ht => (hkeeps t ht).2)
  · obtain ⟨e, hslot, hstatus, hfqsn, hlog⟩ := h.told hst
    refine ⟨⟨[e], hlog, ?_, ?_⟩, hkeeps⟩
    · intro e' he'
      rw [mem_singleton.mp he']
      exact hstatus
    · intro t
      by_cases hts : t = s
      · have hshown : q.Shows s := ⟨h.used, hst⟩
        rw [hts]
        refine ⟨fun _ _ => ?_, fun hstays => absurd rfl ((h.shows s).mp (hstays hshown)).2⟩
        simp [hslot, hfqsn]
      · have hother : ([e] : List (Report n)).filter (fun e => e.slot = some t) = [] := by
          simp [hslot, Ne.symm hts]
        exact ⟨fun ht hgone => absurd ((h.shows t).mpr ⟨ht, hts⟩) hgone, fun _ => hother⟩

end farewells

section shelf
variable {κ : Type}

structure Shelf (κ : Type) where
  stock : Set κ
  room : Nat

open Classical in
/-- A key is taken out, or it is put in if there is room for it and it is a good one. -/
noncomputable def Shelf.toggle (S : Shelf κ) (x : κ) (good : Prop) : Shelf κ :=
  if x ∈ S.stock then ⟨S.stock \ {x}, S.room + 1⟩
  else if 0 < S.room ∧ good then ⟨insert x S.stock, S.room - 1⟩ else S

variable {S : Shelf κ} {x : κ}

theorem Shelf.toggle_out (hx : x ∈ S.stock) (good : Prop) :
    S.toggle x good = ⟨S.stock \ {x}, S.room + 1⟩ := if_pos hx

theorem Shelf.toggle_in {good : Prop} (hx : x ∉ S.stock) (hroom : 0 < S.room) (hgood : good) :
    S.toggle x good = ⟨insert x S.stock, S.room - 1⟩ := (if_neg hx).trans (if_pos ⟨hroom, hgood⟩)

theorem Shelf.toggle_not {good : Prop} (hx : x ∉ S.stock) (h : ¬ (0 < S.room ∧ good)) :
    S.toggle x good = S := (if_neg hx).trans (if_neg h)

def Querier.shelf (q : Querier n k) : Shelf (Fin k × Labels) :=
  ⟨{x | ∃ s, s ∉ q.sinstsFree ∧ q.key s = some x}, q.sinstsFree.length⟩

/-- `copy_servinfo` takes the name. -/
def Copies (n : Nat) (c : Fin k) (m : Message) (off : Nat) : Prop :=
  ∃ fuel, ∃ i : ServiceInstance n k, copyServinfo fuel { smon := some c } m off = some (some i)

open Classical in
noncomputable def Querier.bye (q : Querier n k) (m : Message) (S : Shelf (Fin k × Labels)) (ptr : Resource) :
    Shelf (Fin k × Labels) :=
  if h : ∃ x, PtrKey q m ptr x then S.toggle h.choose (Copies n h.choose.1 m ptr.rdata) else S

theorem bye_eq (hd : q.Distinct) {x : Fin k × Labels} (hx : PtrKey q m ptr x) (S : Shelf (Fin k × Labels)) :
    q.bye m S ptr = S.toggle x (Copies n x.1 m ptr.rdata) := by
  have hex : ∃ x, PtrKey q m ptr x := ⟨x, hx⟩
  unfold Querier.bye
  rw [dif_pos hex, hex.choose_spec.unique hd hx]

theorem bye_none (h : ∀ x, ¬ PtrKey q m ptr x) (S : Shelf (Fin k × Labels)) : q.bye m S ptr = S :=
  dif_neg (fun ⟨x, hx⟩ => h x hx)

theorem SameTypes.bye (h : SameTypes q q') : q'.bye m = q.bye m := by
  funext S ptr
  have hkey : PtrKey q' m ptr = PtrKey q m ptr := by
    funext x
    exact propext h.ptrKey
  unfold Querier.bye
  rw [hkey]

end shelf

section ptr
variable {x : Fin k × Labels} {ptrs : List Resource}

theorem stable_dnameLabelToC (p : Mem) (src : Nat) (keep : Bool) :
    Stable none (fun fuel => dnameLabelToC fuel p src keep) :=
  stable_bind_option (stable_chase _ _) (fun _ => stable_const _ _)

theorem stable_dnameLabelCmp (p1 : Src) (l1 : Nat) (p2 : Src) (l2 : Nat) :
    Stable none (fun fuel => dnameLabelCmp fuel p1 l1 p2 l2) :=
  stable_bind_option (stable_chase p1 l1) (fun _ => stable_bind_option (stable_chase p2 l2) (fun _ => stable_const _ _))

theorem stable_copyServinfo (i : ServiceInstance n k) (m : Message) (off : Nat) :
    Stable none (fun fuel => copyServinfo fuel i m off) := by
  unfold copyServinfo
  refine stable_bind_option (stable_loop _ _) ?_
  rintro ⟨name, ret⟩
  by_cases hret : ret = -1
  · simp only [if_pos hret]
    exact stable_const _ _
  simp only [if_neg hret]
  refine stable_bind_option (stable_dnameLabelToC _ _ _) ?_
  rintro (_ | ⟨servname, typeAt⟩)
  · exact stable_const _ _
  refine stable_bind_option (stable_dnameLabelToC _ _ _) ?_
  rintro (_ | ⟨servtype, protoAt⟩)
  · exact stable_const _ _
  refine stable_bind_option (stable_dnameLabelCmp _ _ _ _)
    (fun isTcp => stable_bind_option (stable_dnameLabelCmp _ _ _ _) ?_)
  intro isUdp
  by_cases hproto : isTcp ≠ 0 ∧ isUdp ≠ 0
  · simp only [if_pos hproto]
    exact stable_const _ _
  simp only [if_neg hproto]
  refine stable_bind_option (stable_dnameLabelNext _ _) ?_
  rintro (_ | domainAt)
  · exact stable_const _ _
  refine stable_bind_option (stable_dnameLabelToC _ _ _) ?_
  rintro (_ | ⟨domain, rest⟩)
  · exact stable_const _ _
  · exact stable_const _ _

theorem not_copies (h : copyServinfo (n := n) fuel { smon := some c } m r.rdata = some none) :
    ¬ Copies n c m r.rdata := by
  rintro ⟨fuel', i, hi⟩
  have hstable := stable_copyServinfo (n := n) { smon := some c } m r.rdata
  have hnone := hstable.comes (n := fuel) (by rw [h]; simp)
  have hsome := hstable.comes (n := fuel') (by rw [hi]; simp)
  rw [h] at hnone
  rw [hi] at hsome
  cases hnone.unique hsome

structure SameCache (q q' : Querier n k) : Prop where
  types : SameTypes q q'
  free : q'.sinstsFree = q.sinstsFree
  entries : ∀ t, t ∉ q.sinstsFree → q'.sinsts t = q.sinsts t
  log : q'.log = q.log

theorem SameCache.refl (q : Querier n k) : SameCache q q := ⟨.refl q, rfl, fun _ _ => rfl, rfl⟩

structure Blank (i : ServiceInstance n k) : Prop where
  state : i.state = .init
  arec : i.arec = none
  ready : i.isReady = false

inductive ByePtr (q : Querier n k) (m : Message) (ptr : Resource) : Querier n k → Prop where
  | nothing {q' : Querier n k} : SameCache q q' → (∀ x, PtrKey q m ptr x → x ∉ q.shelf.stock ∧
      (q.sinstsFree = [] ∨ ¬ Copies n x.1 m ptr.rdata)) → ByePtr q m ptr q'
  | removes {s : Fin n} {x : Fin k × Labels} {q' : Querier n k} : Dies q s q' → q.key s = some x → PtrKey q m ptr x →
      ByePtr q m ptr q'
  | adds {s : Fin n} {x : Fin k × Labels} {q' : Querier n k} : q.sinstsFree = s :: q'.sinstsFree → SameTypes q q' →
      (∀ t, t ≠ s → q'.sinsts t = q.sinsts t) → q'.log = q.log → Blank (q'.sinsts s) → q'.key s = some x →
      PtrKey q m ptr x → x ∉ q.shelf.stock → Copies n x.1 m ptr.rdata → ByePtr q m ptr q'

theorem byePtr_of_ptrStep {m' : Message} (ht : q.Tidy) (httl : ptr.ttl = 0)
    (h : ptrStep fuel elapsed (q, m) ptr = some (q', m')) : ByePtr q m ptr q' ∧ m' = m := by
  -- a key that a lookup does not find
  have hmiss : ∀ {c : Fin k}, findServiceMonitor fuel q (.packet m.data) (some ptr.name) = some (some c) →
      findServiceInstance fuel q c m ptr.rdata = some none → ∀ x, PtrKey q m ptr x → x.1 = c ∧ x ∉ q.shelf.stock := by
    intro c hmon hinst x hx
    obtain ⟨hc, hhas⟩ := (findServiceMonitor_back ht.distinct hmon c).mp rfl
    refine ⟨hx.type.unique ht.distinct hhas hx.active hc, ?_⟩
    rintro ⟨s, hs, hkey⟩
    cases (ptr_found ht hmon hinst s).mpr ⟨hs, x, hkey, hx⟩
  cases takesPtr_of_ptrStep h with
  | ignored hmon =>
    refine ⟨.nothing (.refl q) ?_, rfl⟩
    intro x hx
    cases (findServiceMonitor_back ht.distinct hmon x.1).mpr ⟨hx.active, hx.type⟩
  | @goodbye c s _ _ hmon hinst _ hbye hclean =>
    obtain ⟨-, x, hkey, hx⟩ := (ptr_found ht hmon hinst s).mp rfl
    exact ⟨.removes (dies_of_sayGoodbye ht.held hbye hclean) hkey hx, rfl⟩
  | renewed _ _ hne => exact absurd httl hne
  | @failed c s free hmon hinst hfree hinfo =>
    have hne : ∀ t, t ∉ q.sinstsFree → t ≠ s := by
      rintro t ht rfl
      rw [hfree] at ht
      exact ht (mem_cons_self ..)
    refine ⟨.nothing ⟨⟨rfl, fun _ => rfl⟩, rfl, fun t ht => setSinst_others q s _ (hne t ht), rfl⟩ ?_, rfl⟩
    intro x hx
    obtain ⟨hxc, hstock⟩ := hmiss hmon hinst x hx
    rw [hxc]
    exact ⟨hstock, .inr (not_copies hinfo)⟩
  | @adopted c s free i hmon hinst hfree hinfo =>
    obtain ⟨hc, hhas⟩ := (findServiceMonitor_back ht.distinct hmon c).mp rfl
    have hcopies : Copies n c m ptr.rdata := ⟨fuel, i, hinfo⟩
    obtain ⟨name, _, _, _, _, hcopy, rfl⟩ := copyServinfo_eq_some hinfo
    have hx : PtrKey q m ptr (c, plainLabels name) := ⟨hc, hhas, expands_of_dnameCopy hcopy⟩
    refine ⟨.adds (s := s) hfree ⟨rfl, ?_⟩ (fun t ht => setSinst_others _ s _ ht) rfl ?_ ?_ hx (hmiss hmon hinst _ hx).2
      hcopies, rfl⟩
    · intro d
      exact (congrArg ServiceMonitor.fqst
        (setSmon_sinsts_apply { q with sinstsFree := free } c d (s :: (q.smons c).sinsts)) :)
    · rw [setSinst_self]
      exact ⟨rfl, rfl, rfl⟩
    · rw [key_eq_some, setSinst_self]
      exact ⟨rfl, rfl⟩
  | unheard hmon hinst hfree _ =>
    refine ⟨.nothing (.refl q) ?_, rfl⟩
    intro x hx
    exact ⟨(hmiss hmon hinst x hx).2, .inl hfree⟩
  | overflowed _ _ _ hne _ => exact absurd httl hne

theorem ByePtr.types (h : ByePtr q m ptr q') : SameTypes q q' := by
  cases h with
  | nothing hs _ => exact hs.types
  | removes hdies _ _ => exact hdies.types
  | adds _ htypes _ _ _ _ _ _ _ => exact htypes

theorem SameCache.shows (h : SameCache q q') (t : Fin n) : q'.Shows t ↔ q.Shows t := by
  unfold Querier.Shows
  rw [h.free]
  exact and_congr_right (fun ht => by rw [h.entries t ht])

theorem SameCache.farewells (h : SameCache q q') : Farewells q q' := by
  refine farewells_of_silent h.log h.shows ?_
  intro t ht
  rw [h.entries t ((h.shows t).mp ht).1]

theorem ByePtr.farewells (h : ByePtr q m ptr q') : Farewells q q' := by
  cases h with
  | nothing hs _ => exact hs.farewells
  | removes hdies _ _ => exact hdies.farewells
  | @adds s x _ hfree _ hothers hlog hblank _ _ _ _ =>
    have hshows : ∀ t, q'.Shows t ↔ q.Shows t := by
      intro t
      unfold Querier.Shows
      by_cases hts : t = s
      · rw [hts, hfree]
        exact ⟨fun h' => absurd hblank.state h'.2, fun h' => absurd (mem_cons_self ..) h'.1⟩
      · rw [hothers t hts, hfree, mem_cons, not_or]
        exact ⟨fun h' => ⟨⟨hts, h'.1⟩, h'.2⟩, fun h' => ⟨h'.1.2, h'.2⟩⟩
    refine farewells_of_silent hlog hshows ?_
    intro t ht
    rw [hothers t]
    rintro rfl
    exact ht.2 hblank.state

theorem SameCache.shelf (h : SameCache q q') : q'.shelf = q.shelf := by
  unfold Querier.shelf Querier.key
  rw [h.free]
  congr 1
  ext x
  refine exists_congr (fun s => and_congr_right ?_)
  intro hs
  rw [h.entries s hs]

theorem Dies.shelf (h : Dies q s q') (ht : q.NamesApart) (hkey : q.key s = some x) :
    q'.shelf = ⟨q.shelf.stock \ {x}, q.shelf.room + 1⟩ := by
  have hstock : q'.shelf.stock = q.shelf.stock \ {x} := by
    ext y
    constructor
    · rintro ⟨t, hused, hy⟩
      rw [h.free, mem_cons, not_or] at hused
      unfold Querier.key at hy
      rw [h.others t hused.1] at hy
      refine ⟨⟨t, hused.2, hy⟩, ?_⟩
      rintro rfl
      exact hused.1 (ht.key_inj hused.2 h.used hy hkey)
    · rintro ⟨⟨t, hused, hy⟩, hne⟩
      have hts : t ≠ s := by
        rintro rfl
        exact hne (Option.some.inj (hy.symm.trans hkey))
      refine ⟨t, ?_, ?_⟩
      · rw [h.free, mem_cons, not_or]
        exact ⟨hts, hused⟩
      · unfold Querier.key
        rw [h.others t hts]
        exact hy
  have hroom : q'.shelf.room = q.shelf.room + 1 := by
    show q'.sinstsFree.length = _
    rw [h.free]
    rfl
  exact congrArg₂ Shelf.mk hstock hroom

theorem shelf_insert (hfree : q.sinstsFree = s :: q'.sinstsFree) (hnodup : q.sinstsFree.Nodup)
    (hothers : ∀ t, t ≠ s → q'.sinsts t = q.sinsts t) (hkey : q'.key s = some x) :
    q'.shelf = ⟨insert x q.shelf.stock, q.shelf.room - 1⟩ := by
  have hs : s ∉ q'.sinstsFree := by
    rw [hfree] at hnodup
    exact (nodup_cons.mp hnodup).1
  have hsame : ∀ t, t ≠ s → q'.key t = q.key t := by
    intro t ht
    unfold Querier.key
    rw [hothers t ht]
  have hstock : q'.shelf.stock = insert x q.shelf.stock := by
    ext y
    constructor
    · rintro ⟨t, hused, hy⟩
      by_cases hts : t = s
      · rw [hts, hkey] at hy
        exact .inl (Option.some.inj hy).symm
      · refine .inr ⟨t, ?_, hsame t hts ▸ hy⟩
        rw [hfree, mem_cons, not_or]
        exact ⟨hts, hused⟩
    · rintro (rfl | ⟨t, hused, hy⟩)
      · exact ⟨s, hs, hkey⟩
      · rw [hfree, mem_cons, not_or] at hused
        exact ⟨t, hused.2, (hsame t hused.1).trans hy⟩
  have hroom : q'.shelf.room = q.shelf.room - 1 := by
    show q'.sinstsFree.length = q.sinstsFree.length - 1
    rw [hfree]
    rfl
  exact congrArg₂ Shelf.mk hstock hroom

theorem ByePtr.shelf (h : ByePtr q m ptr q') (ht : q.Tidy) : q'.shelf = q.bye m q.shelf ptr := by
  cases h with
  | nothing hs hmiss =>
    rw [hs.shelf]
    by_cases hex : ∃ x, PtrKey q m ptr x
    · obtain ⟨x, hx⟩ := hex
      obtain ⟨hstock, hno⟩ := hmiss x hx
      rw [bye_eq ht.distinct hx, Shelf.toggle_not hstock]
      rintro ⟨hroom, hcopies⟩
      rcases hno with hfull | hno
      · have hzero : q.shelf.room = 0 := congrArg List.length hfull
        rw [hzero] at hroom
        exact Nat.lt_irrefl 0 hroom
      · exact hno hcopies
    · rw [bye_none (fun x hx => hex ⟨x, hx⟩)]
  | @removes s x _ hdies hkey hx =>
    have hin : x ∈ q.shelf.stock := ⟨s, hdies.used, hkey⟩
    rw [bye_eq ht.distinct hx, Shelf.toggle_out hin]
    exact hdies.shelf ht.apart hkey
  | @adds s x _ hfree _ hothers _ _ hkey hx hstock hcopies =>
    have hroom : 0 < q.shelf.room := by
      show 0 < q.sinstsFree.length
      rw [hfree]
      exact Nat.succ_pos _
    rw [bye_eq ht.distinct hx, Shelf.toggle_in hstock hroom hcopies]
    exact shelf_insert hfree ht.held.freeNodup hothers hkey

def Unaddressed (q : Querier n k) (m : Message) (ptrs : List Resource) (s : Fin n) : Prop :=
  ∀ ptr ∈ ptrs, ∀ x, q.key s = some x → ¬ PtrKey q m ptr x

/-- After the PTR records a slot in use is one that none of them has addressed, or a new one; and
the former are all still there. -/
structure ByeHeard (q : Querier n k) (m : Message) (ptrs : List Resource) (q' : Querier n k) : Prop where
  types : SameTypes q q'
  used : ∀ s, s ∉ q'.sinstsFree → Blank (q'.sinsts s) ∨ s ∉ q.sinstsFree ∧ Unaddressed q m ptrs s
  kept : ∀ s, s ∉ q.sinstsFree → Unaddressed q m ptrs s → s ∉ q'.sinstsFree ∧ q'.sinsts s = q.sinsts s

theorem ByeHeard.nil (q : Querier n k) : ByeHeard q m [] q :=
  ⟨.refl q, fun _ hs => .inr ⟨hs, nofun⟩, fun _ hs _ => ⟨hs, rfl⟩⟩

theorem ByePtr.byeHeard (h : ByePtr q₁ m ptr q') (ht : q₁.Tidy) (hh : ByeHeard q m ptrs q₁) :
    ByeHeard q m (ptrs ++ [ptr]) q' := by
  have hpre : ∀ {s}, Unaddressed q m (ptrs ++ [ptr]) s → Unaddressed q m ptrs s :=
    fun hs p hp => hs p (mem_append_left _ hp)
  -- a slot that was kept is addressed by the next record if it has its key now
  have hnext : ∀ {s}, s ∉ q.sinstsFree → Unaddressed q m ptrs s → (∀ x, q₁.key s = some x → ¬ PtrKey q₁ m ptr x) →
      Unaddressed q m (ptrs ++ [ptr]) s := by
    intro s hs hun hnot p hp x hx
    rcases mem_append.mp hp with hp | hp
    · exact hun p hp x hx
    · rw [mem_singleton.mp hp, ← hh.types.ptrKey]
      apply hnot x
      unfold Querier.key
      rw [(hh.kept s hs hun).2]
      exact hx
  have haddressed : ∀ {s x}, s ∉ q.sinstsFree → Unaddressed q m (ptrs ++ [ptr]) s → q₁.key s = some x →
    ¬ PtrKey q₁ m ptr x := by
    intro s x hs hun hx
    unfold Querier.key at hx
    rw [(hh.kept s hs (hpre hun)).2] at hx
    rw [hh.types.ptrKey]
    exact hun ptr (mem_append_right _ (mem_singleton.mpr rfl)) x hx
  refine ⟨hh.types.trans h.types, ?_, ?_⟩
  · cases h with
    | nothing hs hmiss =>
      intro t hused
      rw [hs.free] at hused
      rw [hs.entries t hused]
      rcases hh.used t hused with hblank | ⟨hold, hun⟩
      · exact .inl hblank
      · exact .inr ⟨hold, hnext hold hun (fun x hx hkey => (hmiss x hkey).1 ⟨t, hused, hx⟩)⟩
    | @removes s x _ hdies hkey hx =>
      intro t hused
      rw [hdies.free, mem_cons, not_or] at hused
      rw [hdies.others t hused.1]
      rcases hh.used t hused.2 with hblank | ⟨hold, hun⟩
      · exact .inl hblank
      · refine .inr ⟨hold, hnext hold hun ?_⟩
        intro y hy hkey'
        rw [hkey'.unique ht.distinct hx] at hy
        exact hused.1 (ht.apart.key_inj hused.2 hdies.used hy hkey)
    | @adds s x _ hfree _ hothers _ hblank hkey hx hstock _ =>
      intro t hused
      by_cases hts : t = s
      · rw [hts]
        exact .inl hblank
      · have hused₁ : t ∉ q₁.sinstsFree := by
          rw [hfree, mem_cons, not_or]
          exact ⟨hts, hused⟩
        rw [hothers t hts]
        rcases hh.used t hused₁ with hblank | ⟨hold, hun⟩
        · exact .inl hblank
        · refine .inr ⟨hold, hnext hold hun ?_⟩
          intro y hy hkey'
          rw [hkey'.unique ht.distinct hx] at hy
          exact hstock ⟨t, hused₁, hy⟩
  · intro t hold hun
    obtain ⟨hused, hentry⟩ := hh.kept t hold (hpre hun)
    rw [← hentry]
    cases h with
    | nothing hs _ =>
      rw [hs.free]
      exact ⟨hused, hs.entries t hused⟩
    | @removes s x _ hdies hkey hx =>
      have hts : t ≠ s := by
        rintro rfl
        exact haddressed hold hun hkey hx
      rw [hdies.free, mem_cons, not_or]
      exact ⟨⟨hts, hused⟩, hdies.others t hts⟩
    | adds hfree _ hothers _ _ _ _ _ _ =>
      rw [hfree, mem_cons, not_or] at hused
      exact ⟨hused.2, hothers t hused.1⟩

theorem ptrs_bye {m' : Message} (ht : q.Tidy) (httl : ∀ ptr ∈ ptrs, ptr.ttl = 0)
    (h : runAll (ptrStep fuel elapsed) ptrs (q, m) = some (q', m')) :
    m' = m ∧ q'.Tidy ∧ Farewells q q' ∧ ByeHeard q m ptrs q' ∧ q'.shelf = ptrs.foldl (q.bye m) q.shelf := by
  suffices hrun : ∀ (done : List Resource) (q₁ : Querier n k), q₁.Tidy → ByeHeard q m done q₁ →
      runAll (ptrStep fuel elapsed) ptrs (q₁, m) = some (q', m') → m' = m ∧ q'.Tidy ∧ Farewells q₁ q' ∧
        ByeHeard q m (done ++ ptrs) q' ∧ q'.shelf = ptrs.foldl (q.bye m) q₁.shelf from hrun [] q ht (.nil q) h
  clear h
  induction ptrs with
  | nil =>
    intro done q₁ ht hh h
    cases h
    rw [append_nil]
    exact ⟨rfl, ht, .refl _, hh, rfl⟩
  | cons ptr ptrs ih =>
    intro done q₁ ht hh h
    obtain ⟨⟨q₂, m₂⟩, hstep, hmore⟩ := runAll_cons_eq_some.mp h
    obtain ⟨hfirst, hrest⟩ := forall_mem_cons.mp httl
    obtain ⟨hbye, rfl⟩ := byePtr_of_ptrStep ht hfirst hstep
    have htidy : q₂.Tidy := Effects.tidy (takesPtr_of_ptrStep hstep).effects ht
    obtain ⟨hm, htidy', hfare, hheard, hshelf⟩ := ih hrest (done ++ [ptr]) q₂ htidy (hbye.byeHeard ht hh) hmore
    rw [append_assoc, singleton_append] at hheard
    refine ⟨hm, htidy', hbye.farewells.trans hfare, hheard, ?_⟩
    rw [hshelf, hbye.shelf ht, hh.types.bye]
    rfl

end ptr

end Mdns
