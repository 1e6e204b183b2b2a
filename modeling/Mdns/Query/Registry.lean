import Mdns.Query.State
import Mdns.Lib.Index

/-!
# The registry behind the cache

Which slots are free, which owner and which host each other slot has, and what the user has been
told. The lists of an owner and of a host are the inverse of the slots' own pointers: this is
`Linked`.
-/
namespace Mdns
open Lib List
open Function (update update_eq_self_iff update_of_ne update_self)

structure Notice (N : Type) where
  session : Nat
  name : N
  status : Status
  ready : Bool

structure Registry (S A M N : Type) where
  free : List S
  owner : S → Option M
  host : S → Option A
  members : M → List S
  referrers : A → List S
  active : List A
  spare : List A
  freeM : List M
  shown : S → Bool
  name : S → N
  hostName : A → N
  kind : M → N
  session : M → Nat
  sessions : Nat
  log : List (Notice N)

set_option linter.unusedSectionVars false

namespace Registry

variable {S A M N : Type} [DecidableEq S] [DecidableEq A] [DecidableEq M]
  {free : List S} {spare : List A} {name kind : N} {freeM : List M}

/-- The slot leaves the list of its host, and a host that nobody refers to any more is spare. -/
def leave (r : Registry S A M N) (s : S) : Registry S A M N :=
  { r with
    referrers := unlink r.host r.referrers s,
    active := (r.host s).elim r.active (fun a => if (r.referrers a).erase s = [] then r.active.erase a else r.active),
    spare := (r.host s).elim r.spare (fun a => if (r.referrers a).erase s = [] then a :: r.spare else r.spare) }

def release (r : Registry S A M N) (s : S) : Registry S A M N :=
  { r.leave s with free := s :: r.free, members := unlink r.owner r.members s }

def attach (r : Registry S A M N) (s : S) (a : A) : Registry S A M N :=
  { r with referrers := link (unlink r.host r.referrers s) a s, host := update r.host s (some a) }

def enlist (r : Registry S A M N) (a : A) (spare : List A) (name : N) : Registry S A M N :=
  { r with active := a :: r.active, spare, referrers := update r.referrers a [],
           hostName := update r.hostName a name }

def adopt (r : Registry S A M N) (s : S) (free : List S) (c : M) (name : N) : Registry S A M N :=
  { r with free, owner := update r.owner s (some c), host := update r.host s none,
           members := link r.members c s, shown := update r.shown s false,
           name := update r.name s name }

/-- A free slot is cleared for an owner that does not take it in the end. -/
def clear (r : Registry S A M N) (s : S) (c : M) (name : N) : Registry S A M N :=
  { r with owner := update r.owner s (some c), host := update r.host s none,
           shown := update r.shown s false, name := update r.name s name }

def tell (r : Registry S A M N) (c : M) (name : N) (status : Status) (ready : Bool) : Registry S A M N :=
  { r with log := ⟨r.session c, name, status, ready⟩ :: r.log }

def present (r : Registry S A M N) (s : S) : Registry S A M N :=
  { r with shown := update r.shown s true }

def begin (r : Registry S A M N) (c : M) (freeM : List M) (kind : N) : Registry S A M N :=
  { r with freeM, kind := update r.kind c kind, members := update r.members c [], sessions := r.sessions + 1,
           session := update r.session c r.sessions }

def finish (r : Registry S A M N) (c : M) : Registry S A M N := { r with freeM := c :: r.freeM }

/-- The lists are the inverse of the slots' pointers. `own` are the owners. -/
structure Linked (r : Registry S A M N) (own : List M) : Prop where
  freeNodup : r.free.Nodup
  members : Inverts r.owner (· ∉ r.free) r.members
  referrers : Inverts r.host (· ∉ r.free) r.referrers
  owned : ∀ s, s ∉ r.free → ∃ c ∈ own, r.owner s = some c
  hosted : ∀ s a, s ∉ r.free → r.host s = some a → a ∈ r.active
  hosts : Splits r.active r.spare
  owners : Splits own r.freeM

def Tight (r : Registry S A M N) : Prop := ∀ a ∈ r.active, r.referrers a ≠ []

variable {r : Registry S A M N} {own : List M} {s : S} {a : A} {c : M}

theorem not_mem_cons_iff (t : S) : t ∉ s :: free ↔ t ≠ s ∧ t ∉ free := by
  simp [not_or]

/-- What is left of `Linked` when a slot may stay on the list of a host that it no longer refers
to: owners and members agree, and a slot is on the list of the host that it refers to. -/
structure Held (r : Registry S A M N) (own : List M) : Prop where
  freeNodup : r.free.Nodup
  members : Inverts r.owner (· ∉ r.free) r.members
  owned : ∀ s, s ∉ r.free → ∃ c ∈ own, r.owner s = some c
  hosted : ∀ s a, s ∉ r.free → r.host s = some a → s ∈ r.referrers a ∧ a ∈ r.active
  hosts : Splits r.active r.spare
  owners : Splits own r.freeM

theorem Linked.held (h : r.Linked own) : r.Held own where
  freeNodup := h.freeNodup
  members := h.members
  owned := h.owned
  hosted t b ht hb := ⟨(h.referrers.mem_iff b t).mpr ⟨ht, hb⟩, h.hosted t b ht hb⟩
  hosts := h.hosts
  owners := h.owners

theorem mem_unlink {t : S} (ht : t ≠ s) (hmem : t ∈ r.referrers a) : t ∈ unlink r.host r.referrers s a := by
  rw [unlink_apply]
  split
  · exact (mem_erase_of_ne ht).mpr hmem
  · exact hmem

theorem Held.release (h : r.Held own) (hs : s ∉ r.free) : (r.release s).Held own where
  freeNodup := nodup_cons.mpr ⟨hs, h.freeNodup⟩
  members := (h.members.retire s).congr (fun t => (not_mem_cons_iff t).symm)
  owned t ht := h.owned t ((not_mem_cons_iff t).mp ht).2
  hosted t b ht hb := by
    obtain ⟨hne, hfree⟩ := (not_mem_cons_iff t).mp ht
    obtain ⟨hmem, hactive⟩ := h.hosted t b hfree hb
    refine ⟨mem_unlink hne hmem, ?_⟩
    show b ∈ (r.host s).elim r.active _
    cases hh : r.host s with
    | none => exact hactive
    | some a =>
      rw [Option.elim_some]
      split
      · next hnil =>
        refine (h.hosts.onNodup.mem_erase_iff).mpr ⟨?_, hactive⟩
        rintro rfl
        have hstill := (mem_erase_of_ne hne).mpr hmem
        rw [hnil] at hstill
        cases hstill
      · exact hactive
  hosts := by
    show Splits ((r.host s).elim r.active _) ((r.host s).elim r.spare _)
    cases hh : r.host s with
    | none => exact h.hosts
    | some a =>
      simp only [Option.elim_some]
      split
      · exact h.hosts.turnOff (h.hosted s a hs hh).2
      · exact h.hosts
  owners := h.owners

theorem Held.attach (h : r.Held own) (ha : a ∈ r.active) : (r.attach s a).Held own where
  freeNodup := h.freeNodup
  members := h.members
  owned := h.owned
  hosted t b ht hb := by
    have hb : update r.host s (some a) t = some b := hb
    show t ∈ link (unlink r.host r.referrers s) a s b ∧ b ∈ r.active
    unfold link
    by_cases hts : t = s
    · rw [hts, update_self] at hb
      cases hb
      rw [hts, update_self]
      exact ⟨mem_cons_self .., ha⟩
    · rw [update_of_ne hts] at hb
      obtain ⟨hmem, hactive⟩ := h.hosted t b ht hb
      refine ⟨?_, hactive⟩
      have hstill := mem_unlink hts hmem
      by_cases hba : b = a
      · rw [hba, update_self]
        exact mem_cons_of_mem s (hba ▸ hstill)
      · rw [update_of_ne hba]
        exact hstill
  hosts := h.hosts
  owners := h.owners

theorem Held.enlist (h : r.Held own) (hsp : r.spare = a :: spare) :
    (r.enlist a spare name).Held own where
  freeNodup := h.freeNodup
  members := h.members
  owned := h.owned
  hosted t b ht hb := by
    obtain ⟨hmem, hactive⟩ := h.hosted t b ht hb
    have hba : b ≠ a := by
      rintro rfl
      exact (h.hosts.off_iff b).mp (by rw [hsp]; exact mem_cons_self ..) hactive
    refine ⟨?_, mem_cons_of_mem a hactive⟩
    show t ∈ update r.referrers a [] b
    rw [update_of_ne hba]
    exact hmem
  hosts := (hsp ▸ h.hosts).turnOn
  owners := h.owners

def abandon (r : Registry S A M N) (s : S) : Registry S A M N := { r with host := update r.host s none }

theorem host_abandon {t : S} {b : A} (h : update r.host s none t = some b) : t ≠ s ∧ r.host t = some b := by
  by_cases hts : t = s
  · rw [hts, update_self] at h
    cases h
  · exact ⟨hts, (update_of_ne hts none r.host).symm.trans h⟩

theorem Held.abandon (h : r.Held own) : (r.abandon s).Held own where
  freeNodup := h.freeNodup
  members := h.members
  owned := h.owned
  hosted t b ht hb := h.hosted t b ht (host_abandon hb).2
  hosts := h.hosts
  owners := h.owners

theorem mem_or_not_free (hf : r.free = s :: free) (hnodup : r.free.Nodup) (t : S) :
    (t = s ∨ t ∉ r.free) ↔ t ∉ free := by
  rw [hf, nodup_cons] at hnodup
  by_cases ht : t = s
  · subst ht
    simp [hnodup.1]
  · simp [hf, ht]

theorem Held.adopt {free : List S} {name : N} (h : r.Held own) (hf : r.free = s :: free) (hc : c ∈ own) :
    (r.adopt s free c name).Held own := by
  have hlive := mem_or_not_free hf h.freeNodup
  have hs : ¬ s ∉ r.free := by simp [hf]
  exact {
    freeNodup := (nodup_cons.mp (hf ▸ h.freeNodup)).2
    members := (h.members.join hs c).congr hlive
    owned := fun t ht => by
      by_cases hts : t = s
      · subst hts
        exact ⟨c, hc, update_self ..⟩
      · obtain ⟨d, hd, ho⟩ := h.owned t (((hlive t).mpr ht).resolve_left hts)
        exact ⟨d, hd, (update_of_ne hts ..).trans ho⟩
    hosted := fun t b ht hb => by
      obtain ⟨hts, hb⟩ := host_abandon hb
      exact h.hosted t b (((hlive t).mpr ht).resolve_left hts) hb
    hosts := h.hosts
    owners := h.owners }

theorem Held.clear {name : N} (h : r.Held own) (hs : s ∈ r.free) : (r.clear s c name).Held own := by
  have hne : ∀ t, t ∉ r.free → t ≠ s := fun t ht hts => ht (hts ▸ hs)
  exact {
    freeNodup := h.freeNodup
    members := h.members.congr_on (fun t ht => update_of_ne (hne t ht) ..)
    owned := fun t ht => by
      obtain ⟨d, hd, ho⟩ := h.owned t ht
      exact ⟨d, hd, (update_of_ne (hne t ht) ..).trans ho⟩
    hosted := fun t b ht hb => h.hosted t b ht ((update_of_ne (hne t ht) ..).symm.trans hb)
    hosts := h.hosts
    owners := h.owners }

theorem Held.finish (h : r.Held own) (hc : c ∈ own) (hm : r.members c = []) : (r.finish c).Held (own.erase c) where
  freeNodup := h.freeNodup
  members := h.members
  owned t ht := by
    obtain ⟨d, hd, ho⟩ := h.owned t ht
    refine ⟨d, (h.owners.onNodup.mem_erase_iff).mpr ⟨?_, hd⟩, ho⟩
    rintro rfl
    have ht' := (h.members.mem_iff d t).mpr ⟨ht, ho⟩
    rw [hm] at ht'
    cases ht'
  hosted := h.hosted
  hosts := h.hosts
  owners := h.owners.turnOff hc

theorem Held.owner_mem (h : r.Held own) (hs : s ∉ r.free) (ho : r.owner s = some c) : c ∈ own := by
  obtain ⟨d, hd, hod⟩ := h.owned s hs
  rw [ho] at hod
  cases hod
  exact hd

theorem Held.begin (h : r.Held own) (hf : r.freeM = c :: freeM) :
    (r.begin c freeM kind).Held (c :: own) where
  freeNodup := h.freeNodup
  members := by
    have hc : c ∉ own := (h.owners.off_iff c).mp (by rw [hf]; exact mem_cons_self ..)
    have hnil : r.members c = [] := by
      refine eq_nil_iff_forall_not_mem.mpr (fun t ht => ?_)
      obtain ⟨hfree, howner⟩ := (h.members.mem_iff c t).mp ht
      exact hc (h.owner_mem hfree howner)
    have hsame : update r.members c [] = r.members := update_eq_self_iff.mpr hnil.symm
    show Inverts r.owner (· ∉ r.free) (update r.members c [])
    rw [hsame]
    exact h.members
  owned t ht := by
    obtain ⟨d, hd, ho⟩ := h.owned t ht
    exact ⟨d, mem_cons_of_mem c hd, ho⟩
  hosted := h.hosted
  hosts := h.hosts
  owners := (hf ▸ h.owners).turnOn

theorem Held.linked (h : r.Held own) (href : Inverts r.host (· ∉ r.free) r.referrers) : r.Linked own :=
  ⟨h.freeNodup, h.members, href, h.owned, fun t b ht hb => (h.hosted t b ht hb).2, h.hosts, h.owners⟩

theorem Linked.release (h : r.Linked own) (hs : s ∉ r.free) : (r.release s).Linked own :=
  (h.held.release hs).linked ((h.referrers.retire s).congr (fun t => (not_mem_cons_iff t).symm))

theorem Linked.attach (h : r.Linked own) (hs : s ∉ r.free) (ha : a ∈ r.active) : (r.attach s a).Linked own :=
  (h.held.attach ha).linked (h.referrers.move hs a)

theorem Linked.referrers_spare (h : r.Linked own) (ha : a ∈ r.spare) : r.referrers a = [] := by
  refine eq_nil_iff_forall_not_mem.mpr (fun t ht => ?_)
  obtain ⟨hfree, hhost⟩ := (h.referrers.mem_iff a t).mp ht
  exact (h.hosts.off_iff a).mp ha (h.hosted t a hfree hhost)

theorem Linked.enlist (h : r.Linked own) (hsp : r.spare = a :: spare) :
    (r.enlist a spare name).Linked own := by
  have hnil : update r.referrers a [] = r.referrers :=
    update_eq_self_iff.mpr (h.referrers_spare (by rw [hsp]; exact mem_cons_self ..)).symm
  apply (h.held.enlist hsp).linked
  show Inverts r.host (· ∉ r.free) (update r.referrers a [])
  rw [hnil]
  exact h.referrers

theorem Linked.adopt {free : List S} {name : N} (h : r.Linked own) (hf : r.free = s :: free) (hc : c ∈ own) :
    (r.adopt s free c name).Linked own := by
  have hs : ¬ s ∉ r.free := by simp [hf]
  exact (h.held.adopt hf hc).linked ((h.referrers.join_none hs).congr (mem_or_not_free hf h.freeNodup))

theorem Linked.clear {name : N} (h : r.Linked own) (hs : s ∈ r.free) : (r.clear s c name).Linked own := by
  apply (h.held.clear hs).linked
  refine h.referrers.congr_on ?_
  intro t ht
  have hts : t ≠ s := fun hts => ht (hts ▸ hs)
  exact update_of_ne hts ..

theorem Linked.finish (h : r.Linked own) (hc : c ∈ own) (hm : r.members c = []) : (r.finish c).Linked (own.erase c) :=
  (h.held.finish hc hm).linked h.referrers

theorem Linked.begin (h : r.Linked own) (hf : r.freeM = c :: freeM) :
    (r.begin c freeM kind).Linked (c :: own) := (h.held.begin hf).linked h.referrers

theorem Linked.owner_mem (h : r.Linked own) (hs : s ∉ r.free) (ho : r.owner s = some c) : c ∈ own :=
  h.held.owner_mem hs ho

end Registry

end Mdns
