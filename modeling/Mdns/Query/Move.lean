import Mdns.Query.Registry
import Mathlib.Logic.Relation

/-!
# The moves of the registry

Everything that the querier does between two commands is a sequence of these moves. `mayMove`
restricts which hosts a slot may be attached to, and `live` are the owners whose user hears of what
happens to their slots.
-/
namespace Mdns
open Lib List
open Function (update update_apply update_of_ne update_self)

set_option linter.unusedSectionVars false

namespace Registry

variable {S A M N K : Type} [DecidableEq S] [DecidableEq A] [DecidableEq M] {s : S} {a : A}

section
variable (wf : N → Prop) (key : N → K) (mayMove : Registry S A M N → S → A → Prop) (live : List M)

inductive Move : Registry S A M N → Registry S A M N → Prop where
  | drop {r : Registry S A M N} {s : S} : s ∉ r.free →
      (∀ c ∈ live, r.owner s = some c → r.shown s = false) → Move r (r.release s)
  | vanish {r : Registry S A M N} {s : S} {c : M} {ready : Bool} : s ∉ r.free → c ∈ live → r.owner s = some c →
      r.shown s = true → Move r ((r.release s).tell c (r.name s) .disappeared ready)
  | attach {r : Registry S A M N} {s : S} {a : A} : s ∉ r.free → a ∈ r.active → mayMove r s a →
      Move r (r.attach s a)
  | recruit {r : Registry S A M N} {s : S} {a : A} {spare : List A} {name : N} : s ∉ r.free →
      r.spare = a :: spare → wf name → mayMove (r.enlist a spare name) s a →
      Move r ((r.enlist a spare name).attach s a)
  | adopt {r : Registry S A M N} {s : S} {free : List S} {c : M} {name : N} : r.free = s :: free → c ∈ live →
      wf name → (∀ t ∈ r.members c, key (r.name t) ≠ key name) → Move r (r.adopt s free c name)
  | clear {r : Registry S A M N} {s : S} {c : M} {name : N} : s ∈ r.free → Move r (r.clear s c name)
  | discover {r : Registry S A M N} {s : S} {c : M} : s ∉ r.free → c ∈ live → r.owner s = some c →
      r.shown s = false → Move r ((r.tell c (r.name s) .discovered true).present s)
  | change {r : Registry S A M N} {s : S} {c : M} {ready : Bool} : s ∉ r.free → c ∈ live → r.owner s = some c →
      r.shown s = true → Move r (r.tell c (r.name s) .updated ready)
  | overflow {r : Registry S A M N} {c : M} {name : N} {ready : Bool} : c ∈ live →
      Move r (r.tell c name .cacheFull ready)

def Moves : Registry S A M N → Registry S A M N → Prop := Relation.ReflTransGen (Move wf key mayMove live)

end

variable {wf : N → Prop} {key : N → K} {mayMove : Registry S A M N → S → A → Prop} {live own : List M}
  {r r' : Registry S A M N}

theorem Moves.keeps {I : Registry S A M N → Prop} (hstep : ∀ r r', Move wf key mayMove live r r' → I r → I r')
    (h : Moves wf key mayMove live r r') (hr : I r) : I r' := by
  induction h with
  | refl => exact hr
  | tail _ hm ih => exact hstep _ _ hm ih

theorem Move.linked (h : Move wf key mayMove live r r') (hl : r.Linked own) (hlive : live ⊆ own) :
    r'.Linked own := by
  cases h with
  | drop hs _ => exact hl.release hs
  | vanish hs _ _ _ =>
    have h' := hl.release hs
    exact ⟨h'.freeNodup, h'.members, h'.referrers, h'.owned, h'.hosted, h'.hosts, h'.owners⟩
  | attach hs ha _ => exact hl.attach hs ha
  | recruit hs hsp _ _ => exact (hl.enlist hsp).attach hs (mem_cons_self ..)
  | adopt hf hc _ _ => exact hl.adopt hf (hlive hc)
  | clear hs => exact hl.clear hs
  | discover _ _ _ _ =>
    exact ⟨hl.freeNodup, hl.members, hl.referrers, hl.owned, hl.hosted, hl.hosts, hl.owners⟩
  | change _ _ _ _ =>
    exact ⟨hl.freeNodup, hl.members, hl.referrers, hl.owned, hl.hosted, hl.hosts, hl.owners⟩
  | overflow _ =>
    exact ⟨hl.freeNodup, hl.members, hl.referrers, hl.owned, hl.hosted, hl.hosts, hl.owners⟩

theorem Moves.linked (h : Moves wf key mayMove live r r') (hl : r.Linked own) (hlive : live ⊆ own) :
    r'.Linked own :=
  h.keeps (fun _ _ hm hl => hm.linked hl hlive) hl

/-- Every slot and every host in use has a name that can be looked up. -/
structure Named (wf : N → Prop) (r : Registry S A M N) : Prop where
  slots : ∀ s, s ∉ r.free → wf (r.name s)
  hosts : ∀ a ∈ r.active, wf (r.hostName a)

theorem mem_active_of_release (h : a ∈ (r.release s).active) : a ∈ r.active := by
  have h : a ∈ (r.host s).elim r.active _ := h
  cases hh : r.host s with
  | none =>
    rw [hh] at h
    exact h
  | some b =>
    rw [hh, Option.elim_some] at h
    split at h
    · exact mem_of_mem_erase h
    · exact h

theorem Move.named (h : Move wf key mayMove live r r') (hn : r.Named wf) : r'.Named wf := by
  cases h with
  | drop _ _ =>
    exact ⟨fun t ht => hn.slots t ((not_mem_cons_iff t).mp ht).2, fun a ha => hn.hosts a (mem_active_of_release ha)⟩
  | vanish _ _ _ _ =>
    exact ⟨fun t ht => hn.slots t ((not_mem_cons_iff t).mp ht).2, fun a ha => hn.hosts a (mem_active_of_release ha)⟩
  | attach _ _ _ => exact ⟨hn.slots, hn.hosts⟩
  | @recruit s a spare name _ _ hwf _ =>
    refine ⟨hn.slots, fun b hb => ?_⟩
    show wf (update r.hostName a name b)
    by_cases hba : b = a
    · rw [hba, update_self]
      exact hwf
    · rw [update_of_ne hba]
      exact hn.hosts b ((mem_cons.mp hb).resolve_left hba)
  | @adopt s free c name hf hc hwf _ =>
    refine ⟨fun t ht => ?_, hn.hosts⟩
    show wf (update r.name s name t)
    by_cases hts : t = s
    · rw [hts, update_self]
      exact hwf
    · rw [update_of_ne hts]
      refine hn.slots t (fun hmem => ?_)
      rw [hf] at hmem
      exact ht ((mem_cons.mp hmem).resolve_left hts)
  | @clear s c name hs =>
    refine ⟨fun t ht => ?_, hn.hosts⟩
    have hts : t ≠ s := by
      rintro rfl
      exact ht hs
    show wf (update r.name s name t)
    rw [update_of_ne hts]
    exact hn.slots t ht
  | discover _ _ _ _ => exact ⟨hn.slots, hn.hosts⟩
  | change _ _ _ _ => exact ⟨hn.slots, hn.hosts⟩
  | overflow _ => exact ⟨hn.slots, hn.hosts⟩

theorem Moves.named (h : Moves wf key mayMove live r r') (hn : r.Named wf) : r'.Named wf :=
  h.keeps (fun _ _ hm => hm.named) hn

theorem Moves.kind (h : Moves wf key mayMove live r r') : r'.kind = r.kind := by
  refine h.keeps (I := fun r' => r'.kind = r.kind) (fun _ _ hm hk => ?_) rfl
  cases hm <;> exact hk

def Keeps (r : Registry S A M N) (s : S) (a : A) : Prop :=
  ∀ old, r.host s = some old → (r.referrers old).erase s = [] → old = a

theorem referrers_release_ne_nil (hr : a ∈ r.active → r.referrers a ≠ []) (hl : r.Linked own)
    (ha : a ∈ (r.release s).active) : (r.release s).referrers a ≠ [] := by
  have ha : a ∈ (r.host s).elim r.active _ := ha
  show unlink r.host r.referrers s a ≠ []
  rw [unlink_apply]
  cases hh : r.host s with
  | none =>
    rw [hh] at ha
    simpa using hr ha
  | some b =>
    rw [hh, Option.elim_some] at ha
    by_cases hab : a = b
    · subst hab
      rw [if_pos rfl]
      split at ha
      · exact absurd rfl (hl.hosts.onNodup.mem_erase_iff.mp ha).1
      · assumption
    · rw [if_neg (fun he => hab (Option.some.inj he).symm)]
      split at ha
      · exact hr (hl.hosts.onNodup.mem_erase_iff.mp ha).2
      · exact hr ha

theorem Tight.release (ht : r.Tight) (hl : r.Linked own) : (r.release s).Tight :=
  fun a ha => referrers_release_ne_nil (ht a) hl ha

theorem referrers_attach_ne_nil {b : A} (hk : r.Keeps s a) (hb : b = a ∨ r.referrers b ≠ []) :
    (r.attach s a).referrers b ≠ [] := by
  show link (unlink r.host r.referrers s) a s b ≠ []
  rw [link, update_apply]
  split
  · simp
  · next hba =>
    rw [unlink_apply]
    split
    · next hh => exact fun hnil => hba (hk b hh hnil)
    · exact hb.resolve_left hba

theorem Move.tight (h : Move wf key mayMove live r r') (hmay : ∀ r s a, mayMove r s a → r.Keeps s a)
    (hl : r.Linked own) (ht : r.Tight) : r'.Tight := by
  cases h with
  | drop _ _ => exact ht.release hl
  | vanish _ _ _ _ => exact ht.release hl
  | attach _ _ hm => exact fun b hb => referrers_attach_ne_nil (hmay _ _ _ hm) (.inr (ht b hb))
  | @recruit s a spare name _ _ _ hm =>
    intro b hb
    refine referrers_attach_ne_nil (hmay _ _ _ hm) ?_
    by_cases hba : b = a
    · exact .inl hba
    · refine .inr ?_
      show update r.referrers a [] b ≠ []
      rw [update_of_ne hba]
      exact ht b ((mem_cons.mp hb).resolve_left hba)
  | adopt _ _ _ _ => exact ht
  | clear _ => exact ht
  | discover _ _ _ _ => exact ht
  | change _ _ _ _ => exact ht
  | overflow _ => exact ht

theorem Moves.tight (h : Moves wf key mayMove live r r') (hmay : ∀ r s a, mayMove r s a → r.Keeps s a)
    (hl : r.Linked own) (hlive : live ⊆ own) (ht : r.Tight) : r'.Tight :=
  (h.keeps (I := fun r => r.Linked own ∧ r.Tight)
    (fun _ _ hm hr => ⟨hm.linked hr.1 hlive, hm.tight hmay hr.1 hr.2⟩) ⟨hl, ht⟩).2

theorem Moves.referred (h : Moves wf key (fun r s a => r.host s = some a) live r r') (hl : r.Linked own)
    (hlive : live ⊆ own) (hr : a ∈ r.active → r.referrers a ≠ []) : a ∈ r'.active → r'.referrers a ≠ [] := by
  refine (h.keeps (I := fun r => r.Linked own ∧ (a ∈ r.active → r.referrers a ≠ [])) ?_ ⟨hl, hr⟩).2
  rintro r r' hm ⟨hl, hr⟩
  refine ⟨hm.linked hl hlive, ?_⟩
  cases hm with
  | drop _ _ => exact referrers_release_ne_nil hr hl
  | vanish _ _ _ _ => exact referrers_release_ne_nil hr hl
  | @attach s b _ _ hhost =>
    intro ha
    refine referrers_attach_ne_nil (fun old hold _ => ?_) (.inr (hr ha))
    exact Option.some.inj (hold.symm.trans hhost)
  | @recruit s b spare name hs hspare _ hhost =>
    -- the host of a slot is in use, so it is not a spare one
    have hoff : b ∈ r.spare := by
      rw [hspare]
      exact mem_cons_self ..
    exact absurd (hl.hosted s b hs hhost) ((hl.hosts.off_iff b).mp hoff)
  | adopt _ _ _ _ => exact hr
  | clear _ => exact hr
  | discover _ _ _ _ => exact hr
  | change _ _ _ _ => exact hr
  | overflow _ => exact hr

theorem Tight.length_active_le (ht : r.Tight) (hl : r.Linked own) {slots : List S} (hs : ∀ s, s ∉ r.free → s ∈ slots) :
    r.active.length ≤ (slots.filter (· ∉ r.free)).length := by
  -- each host in use is the host of the first slot that refers to it
  have hsub : r.active ⊆ (slots.filter (· ∉ r.free)).filterMap r.host := by
    intro a ha
    obtain ⟨s, hmem⟩ := exists_mem_of_ne_nil _ (ht a ha)
    obtain ⟨hfree, hhost⟩ := (hl.referrers.mem_iff a s).mp hmem
    exact mem_filterMap.mpr ⟨s, mem_filter.mpr ⟨hs s hfree, by simpa using hfree⟩, hhost⟩
  exact (hl.hosts.onNodup.subperm hsub).length_le.trans (length_filterMap_le ..)

end Registry

end Mdns
