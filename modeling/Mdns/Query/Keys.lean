import Mdns.Dname.Compare
import Mdns.Query.Table

/-!
# What the lookups find

A slot in use stands for a monitor and a name, its key. In a tidy querier a lookup that comes back
finds the slot whose key the record has, wherever it is in its list, and nothing if there is none.
-/
namespace Mdns
open Lib Option

variable {n k : Nat} {q : Querier n k} {c : Fin k} {s : Fin n} {fuel off : Nat} {m : Message} {r : Resource}

section lookups
variable {p : Src}

theorem sameName_back {name : Mem} {b : Bool} (h : sameName fuel name p off = some b) :
    (∃ d, NameCmp (.plain name) p 0 off d) ∧ (b = true ↔ ∃ N, Expands (.plain name) 0 N ∧ Expands p off N) := by
  unfold sameName at h
  obtain ⟨d, hd, hb⟩ := map_eq_some_iff.mp h
  have hcmp := nameCmp_of_dnameCmp hd
  refine ⟨⟨d, hcmp⟩, ?_⟩
  constructor
  · intro htrue
    have hzero : d = 0 := by simpa [← hb] using htrue
    rw [hzero] at hcmp
    exact hcmp.expands
  · rintro ⟨N, hN, hN'⟩
    have hzero : d = 0 := (dnameCmp_eq hd hN hN').trans (cmpLabels_eq_zero.mpr rfl)
    rw [← hb, hzero]
    rfl

def Querier.Has {H I : Type} (q : Querier n k H I) (c : Fin k) (p : Src) (off : Nat) : Prop :=
  ∃ N, Expands (.plain (q.smons c).fqst) 0 N ∧ Expands p off N

theorem Querier.Has.unique {H I : Type} {q : Querier n k H I} {d : Fin k} (hd : q.Distinct)
    (h : q.Has c p off) (h' : q.Has d p off) (hc : c ∈ q.smonsActive)
    (hd' : d ∈ q.smonsActive) : c = d := by
  obtain ⟨N, hN, hname⟩ := h
  obtain ⟨N', hN', hname'⟩ := h'
  rw [hname'.unique hname] at hN'
  exact hd c hc d hd' N hN hN'

theorem findServiceMonitor_back (hd : q.Distinct) {found : Option (Fin k)}
    (h : findServiceMonitor fuel q p (some off) = some found) (c : Fin k) :
    found = some c ↔ c ∈ q.smonsActive ∧ q.Has c p off := by
  constructor
  · rintro rfl
    obtain ⟨hc, hsame⟩ := findFirst_mem h
    exact ⟨hc, (sameName_back hsame).2.mp rfl⟩
  · rintro ⟨hc, hhas⟩
    cases found with
    | none => exact absurd ((sameName_back (findFirst_none h c hc)).2.mpr hhas) Bool.false_ne_true
    | some d =>
      obtain ⟨hd', hsame⟩ := findFirst_mem h
      have hhas' : q.Has d p off := (sameName_back hsame).2.mp rfl
      rw [hhas.unique hd hhas' hc hd']

theorem sameName_slot (ht : q.NamesApart) (hs : s ∉ q.sinstsFree) {b : Bool}
    (h : sameName fuel (q.sinsts s).fqsn p off = some b) :
    b = true ↔ Expands p off (plainLabels (q.sinsts s).fqsn) := by
  have hw : Expands (.plain (q.sinsts s).fqsn) 0 (plainLabels (q.sinsts s).fqsn) := ht.named s hs
  rw [(sameName_back h).2]
  constructor
  · rintro ⟨N, hN, hname⟩
    rw [hw.unique hN]
    exact hname
  · intro hname
    exact ⟨_, hw, hname⟩

theorem findServiceInstance_back (ht : q.Tidy) {found : Option (Fin n)}
    (h : findServiceInstance fuel q c m off = some found) (s : Fin n) :
    found = some s ↔ s ∉ q.sinstsFree ∧ (q.sinsts s).smon = some c ∧
      Expands (.packet m.data) off (plainLabels (q.sinsts s).fqsn) := by
  have hmem : ∀ t, t ∈ (q.smons c).sinsts ↔ t ∉ q.sinstsFree ∧ (q.sinsts t).smon = some c := ht.held.members.mem_iff c
  constructor
  · rintro rfl
    obtain ⟨hs, hsame⟩ := findFirst_mem h
    obtain ⟨hused, ho⟩ := (hmem s).mp hs
    exact ⟨hused, ho, (sameName_slot ht.apart hused hsame).mp rfl⟩
  · rintro ⟨hused, ho, hname⟩
    cases found with
    | none =>
      have hsame := findFirst_none h s ((hmem s).mpr ⟨hused, ho⟩)
      exact absurd ((sameName_slot ht.apart hused hsame).mpr hname) Bool.false_ne_true
    | some t =>
      obtain ⟨hmem', hsame⟩ := findFirst_mem h
      obtain ⟨hused', ho'⟩ := (hmem t).mp hmem'
      have hname' := (sameName_slot ht.apart hused' hsame).mp rfl
      rw [ht.apart.apart s t hused hused' (ho.trans ho'.symm) (hname.unique hname')]

end lookups

section keys
variable {x : Fin k × Labels} {found : Option (Fin n)}

def Querier.key (q : Querier n k) (s : Fin n) : Option (Fin k × Labels) :=
  (q.sinsts s).smon.map (fun c => (c, plainLabels (q.sinsts s).fqsn))

theorem key_eq_some :
    q.key s = some x ↔ (q.sinsts s).smon = some x.1 ∧ plainLabels (q.sinsts s).fqsn = x.2 := by
  unfold Querier.key
  cases (q.sinsts s).smon with
  | none => simp
  | some c => simp [Prod.ext_iff]

theorem Querier.NamesApart.key_inj {t : Fin n} (h : q.NamesApart) (hs : s ∉ q.sinstsFree) (ht : t ∉ q.sinstsFree)
    (hsx : q.key s = some x) (htx : q.key t = some x) : s = t := by
  obtain ⟨ho, hname⟩ := key_eq_some.mp hsx
  obtain ⟨ho', hname'⟩ := key_eq_some.mp htx
  exact h.apart s t hs ht (ho.trans ho'.symm) (hname.trans hname'.symm)

theorem Querier.Held.key_active (h : q.Held) (hs : s ∉ q.sinstsFree) : ∃ x, q.key s = some x ∧ x.1 ∈ q.smonsActive := by
  obtain ⟨c, hc, ho⟩ := h.owned s hs
  exact ⟨(c, _), key_eq_some.mpr ⟨ho, rfl⟩, hc⟩

structure PtrKey (q : Querier n k) (m : Message) (ptr : Resource) (x : Fin k × Labels) : Prop where
  active : x.1 ∈ q.smonsActive
  type : q.Has x.1 (.packet m.data) ptr.name
  name : Expands (.packet m.data) ptr.rdata x.2

/-- The key of a TXT or SRV record: what follows its first label is the name of the monitor. -/
structure RecKey (q : Querier n k) (m : Message) (r : Resource) (x : Fin k × Labels) : Prop where
  active : x.1 ∈ q.smonsActive
  type : ∃ fuel off, dnameLabelNext fuel (.packet m.data) r.name = some (some off) ∧ q.Has x.1 (.packet m.data) off
  name : Expands (.packet m.data) r.name x.2

theorem PtrKey.unique {y : Fin k × Labels} (hd : q.Distinct) (h : PtrKey q m r x) (h' : PtrKey q m r y) : x = y :=
  Prod.ext (h.type.unique hd h'.type h.active h'.active) (h.name.unique h'.name)

theorem stable_dnameLabelNext (p : Src) (off : Nat) : Stable none (fun fuel => dnameLabelNext fuel p off) :=
  stable_bind_option (stable_chase p off) (fun _ => stable_const _ _)

theorem dnameLabelNext_unique {p : Src} {fuel' : Nat} {x y : Option Nat} (h : dnameLabelNext fuel p off = some x)
    (h' : dnameLabelNext fuel' p off = some y) : x = y := by
  have hx := (stable_dnameLabelNext p off).comes (n := fuel) (by rw [h]; simp)
  have hy := (stable_dnameLabelNext p off).comes (n := fuel') (by rw [h']; simp)
  rw [h] at hx
  rw [h'] at hy
  exact some.inj (hx.unique hy)

theorem ptr_found (ht : q.Tidy) (hmon : findServiceMonitor fuel q (.packet m.data) (some r.name) = some (some c))
    (h : findServiceInstance fuel q c m r.rdata = some found) (s : Fin n) :
    found = some s ↔ s ∉ q.sinstsFree ∧ ∃ x, q.key s = some x ∧ PtrKey q m r x := by
  obtain ⟨hc, hhas⟩ := (findServiceMonitor_back ht.distinct hmon c).mp rfl
  rw [findServiceInstance_back ht h s]
  constructor
  · rintro ⟨hused, ho, hname⟩
    exact ⟨hused, (c, _), key_eq_some.mpr ⟨ho, rfl⟩, hc, hhas, hname⟩
  · rintro ⟨hused, x, hx, hkey⟩
    obtain ⟨ho, hname⟩ := key_eq_some.mp hx
    rw [hhas.unique ht.distinct hkey.type hc hkey.active, hname]
    exact ⟨hused, ho, hkey.name⟩

theorem sinstOf_back (ht : q.Tidy) (h : sinstOf fuel q m r = some found) (s : Fin n) :
    found = some s ↔ s ∉ q.sinstsFree ∧ ∃ x, q.key s = some x ∧ RecKey q m r x := by
  unfold sinstOf at h
  simp only [bind_eq_bind, bind_eq_some_iff] at h
  obtain ⟨next, hnext, mon, hmon, h⟩ := h
  cases next with
  | none =>
    -- there is nothing to follow the first label, and nothing to compare it with
    have hnil : q.smonsActive = [] := by
      unfold findServiceMonitor at hmon
      cases hactive : q.smonsActive with
      | nil => rfl
      | cons c cs =>
        rw [hactive] at hmon
        cases hmon
    constructor
    · rintro rfl
      cases mon with
      | none => cases h
      | some c =>
        have hc := (findFirst_mem hmon).1
        rw [hnil] at hc
        cases hc
    · rintro ⟨-, x, -, hkey⟩
      have hx := hkey.active
      rw [hnil] at hx
      cases hx
  | some off =>
    -- any other result of the walk to the next label is this one
    have hoff : ∀ x, RecKey q m r x → q.Has x.1 (.packet m.data) off := by
      intro x hkey
      obtain ⟨fuel', off', hnext', hhas⟩ := hkey.type
      cases dnameLabelNext_unique hnext hnext'
      exact hhas
    cases mon with
    | none =>
      cases h
      refine ⟨nofun, ?_⟩
      rintro ⟨-, x, -, hkey⟩
      cases (findServiceMonitor_back ht.distinct hmon x.1).mpr ⟨hkey.active, hoff x hkey⟩
    | some c =>
      obtain ⟨hc, hhas⟩ := (findServiceMonitor_back ht.distinct hmon c).mp rfl
      rw [findServiceInstance_back ht h s]
      constructor
      · rintro ⟨hused, ho, hname⟩
        exact ⟨hused, (c, _), key_eq_some.mpr ⟨ho, rfl⟩, hc, ⟨fuel, off, hnext, hhas⟩, hname⟩
      · rintro ⟨hused, x, hx, hkey⟩
        obtain ⟨ho, hname⟩ := key_eq_some.mp hx
        rw [hhas.unique ht.distinct (hoff x hkey) hc hkey.active, hname]
        exact ⟨hused, ho, hkey.name⟩

structure SameTypes (q q' : Querier n k) : Prop where
  active : q'.smonsActive = q.smonsActive
  fqst : ∀ c, (q'.smons c).fqst = (q.smons c).fqst

variable {q₁ q' : Querier n k}

theorem SameTypes.refl (q : Querier n k) : SameTypes q q := ⟨rfl, fun _ => rfl⟩

theorem SameTypes.trans (h : SameTypes q q₁) (h' : SameTypes q₁ q') : SameTypes q q' :=
  ⟨h'.active.trans h.active, fun c => (h'.fqst c).trans (h.fqst c)⟩

theorem SameTypes.has (h : SameTypes q q') {p : Src} : q'.Has c p off ↔ q.Has c p off := by
  unfold Querier.Has
  rw [h.fqst c]

theorem SameTypes.ptrKey (h : SameTypes q q') : PtrKey q' m r x ↔ PtrKey q m r x := by
  constructor
  · rintro ⟨ha, ht, hn⟩
    exact ⟨h.active ▸ ha, h.has.mp ht, hn⟩
  · rintro ⟨ha, ht, hn⟩
    exact ⟨h.active.symm ▸ ha, h.has.mpr ht, hn⟩

theorem SameTypes.recKey (h : SameTypes q q') : RecKey q' m r x ↔ RecKey q m r x := by
  constructor
  · rintro ⟨ha, ⟨fuel, off, hnext, ht⟩, hn⟩
    exact ⟨h.active ▸ ha, ⟨fuel, off, hnext, h.has.mp ht⟩, hn⟩
  · rintro ⟨ha, ⟨fuel, off, hnext, ht⟩, hn⟩
    exact ⟨h.active.symm ▸ ha, ⟨fuel, off, hnext, h.has.mpr ht⟩, hn⟩

end keys

end Mdns
