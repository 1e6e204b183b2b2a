import Mdns.Query.Invariant
import Mdns.Lib.Relate

/-!
# The lists of the A records as they are threaded

All lists of the A records go through one link of each instance. The two readings agree in every run
whose SRV records take no A record away.
-/
namespace Mdns
open Lib List Option
open Function (update update_eq_self update_of_ne update_self)

variable {n k fuel : Nat}

section links
variable {l l' : Links fuel n} {head : Option (Fin n)} {xs ys : List (Fin n)} {s t : Fin n}

def Links.Shows (l : Links fuel n) : Option (Fin n) → List (Fin n) → Prop
  | head, [] => head = none
  | head, s :: xs => head = some s ∧ l.Shows (l.next s) xs

theorem Links.Shows.head_eq (h : l.Shows head xs) : head = xs.head? := by
  cases xs with
  | nil => exact h
  | cons s xs => exact h.1

theorem Links.Shows.congr (h : l.Shows head xs) (hsame : ∀ t ∈ xs, l'.next t = l.next t) : l'.Shows head xs := by
  induction xs generalizing head with
  | nil => exact h
  | cons s xs ih =>
    obtain ⟨hs, hxs⟩ := forall_mem_cons.mp hsame
    refine ⟨h.1, ?_⟩
    rw [hs]
    exact ih h.2 hxs

theorem Links.Shows.suffix (h : l.Shows head (xs ++ ys)) : l.Shows ys.head? ys := by
  induction xs generalizing head with
  | nil =>
    have hhead : head = ys.head? := h.head_eq
    rw [← hhead]
    exact h
  | cons s xs ih => exact ih h.2

theorem Links.Shows.before_of_not_mem (h : l.Shows head xs) (hs : s ∉ xs) (rounds : Nat) :
    l.before s rounds head = none := by
  induction xs generalizing head rounds with
  | nil =>
    obtain rfl : head = none := h
    cases rounds <;> rfl
  | cons t xs ih =>
    obtain ⟨rfl, hrest⟩ := h
    have hnext : l.next t ≠ some s := by
      rw [hrest.head_eq]
      exact fun hhead => hs (mem_cons_of_mem t (mem_of_mem_head? hhead))
    cases rounds with
    | zero => rfl
    | succ rounds =>
      rw [Links.before, if_neg hnext]
      exact ih hrest (not_mem_of_not_mem_cons hs) rounds

theorem Links.Shows.before_of_mem (h : l.Shows head xs) (hs : s ∈ xs) (hhead : head ≠ some s) {rounds : Nat}
    (hrounds : xs.length ≤ rounds) : ∃ pre t post, xs = pre ++ t :: s :: post ∧ l.before s rounds head = some t := by
  induction xs generalizing head rounds with
  | nil => cases hs
  | cons u xs ih =>
    obtain ⟨rfl, hrest⟩ := h
    have hs : s ∈ xs := (mem_cons.mp hs).resolve_left (fun hsu => hhead (by rw [hsu]))
    obtain ⟨rounds, rfl⟩ : ∃ r, rounds = r + 1 := ⟨rounds - 1, by rw [length_cons] at hrounds; omega⟩
    rw [Links.before]
    by_cases hnext : l.next u = some s
    · rw [if_pos hnext]
      cases xs with
      | nil => cases hs
      | cons v post =>
        obtain rfl : v = s := some.inj (hrest.1.symm.trans hnext)
        exact ⟨[], u, post, rfl, rfl⟩
    · rw [if_neg hnext]
      obtain ⟨pre, t, post, rfl, hbefore⟩ := ih hrest hs hnext (Nat.le_of_succ_le_succ hrounds)
      exact ⟨u :: pre, t, post, rfl, hbefore⟩

theorem Links.Shows.bypass {pre post : List (Fin n)} (h : l.Shows head (pre ++ t :: s :: post))
    (hnodup : (pre ++ t :: s :: post).Nodup) :
    (⟨update l.next t (l.next s)⟩ : Links fuel n).Shows head (pre ++ t :: post) := by
  induction pre generalizing head with
  | nil =>
    obtain ⟨htail, hpost⟩ := nodup_cons.mp hnodup
    refine ⟨h.1, ?_⟩
    rw [show (⟨update l.next t (l.next s)⟩ : Links fuel n).next t = l.next s from update_self ..]
    refine h.2.2.congr (fun u hu => update_of_ne ?_ ..)
    rintro rfl
    exact htail (mem_cons_of_mem s hu)
  | cons u pre ih =>
    obtain ⟨hu, hnodup⟩ := nodup_cons.mp hnodup
    refine ⟨h.1, ?_⟩
    have hut : u ≠ t := by
      rintro rfl
      exact hu (mem_append_right _ (mem_cons_self ..))
    rw [show (⟨update l.next t (l.next s)⟩ : Links fuel n).next u = l.next u from update_of_ne hut ..]
    exact ih h.2 hnodup

theorem Links.Shows.remove_of_mem (h : l.Shows head xs) (hnodup : xs.Nodup) (hs : s ∈ xs) :
    ∃ head' l', AList.remove s head l = some (head', l') ∧ l'.Shows head' (xs.erase s) ∧ ∀ t, t ∉ xs →
      l'.next t = l.next t := by
  by_cases hhead : head = some s
  · cases xs with
    | nil => cases hs
    | cons t xs =>
      obtain rfl : t = s := some.inj (h.1.symm.trans hhead)
      refine ⟨l.next t, l, if_pos hhead, ?_, fun _ _ => rfl⟩
      rw [erase_cons_head]
      exact h.2
  · have hlen : xs.length ≤ n := by simpa using hnodup.length_le_card
    obtain ⟨pre, t, post, rfl, hbefore⟩ := h.before_of_mem hs hhead hlen
    refine ⟨head, ⟨update l.next t (l.next s)⟩, ?_, ?_, fun u hu => update_of_ne ?_ ..⟩
    · show (if head = some s then _ else _) = _
      rw [if_neg hhead, hbefore]
      rfl
    · have herase : (pre ++ t :: s :: post).erase s = pre ++ t :: post := by
        have hne : ∀ u, u ∈ pre ∨ u = t → u ≠ s := by
          rintro u hu rfl
          have := hnodup
          simp only [nodup_append, nodup_cons, mem_cons] at this
          rcases hu with hu | rfl
          · exact this.2.2 u hu u (by simp) rfl
          · exact this.2.1.1 (.inl rfl)
        rw [erase_append_right _ (fun hmem => hne s (.inl hmem) rfl), erase_cons_tail (by simpa using hne t (.inr rfl)),
          erase_cons_head]
      rw [herase]
      exact h.bypass hnodup
    · rintro rfl
      exact hu (by simp)

theorem Links.Shows.remove_of_not_mem (h : l.Shows head xs) (hs : s ∉ xs) : AList.remove s head l = none := by
  have hhead : head ≠ some s := by
    rw [h.head_eq]
    exact fun hmem => hs (mem_of_mem_head? hmem)
  show (if head = some s then _ else _) = _
  rw [if_neg hhead, h.before_of_not_mem hs]
  rfl

/-- An element that is taken off a list keeps its own link. -/
theorem remove_next {head' : Option (Fin n)} (h : AList.remove s head l = some (head', l')) : l'.next s = l.next s := by
  change (if head = some s then some (l.next s, l)
    else (l.before s n head).map (fun t => (head, ⟨update l.next t (l.next s)⟩))) = some (head', l') at h
  split at h
  · cases h
    rfl
  · obtain ⟨t, -, heq⟩ := map_eq_some_iff.mp h
    cases heq
    by_cases hst : s = t
    · rw [hst]
      exact update_self ..
    · exact update_of_ne hst ..

end links

abbrev Threaded (fuel n k : Nat) : Type := Querier n k (Option (Fin n)) (Links fuel n)

def Querier.mirror (L : Threaded fuel n k) (lists : Fin n → List (Fin n)) : Querier n k :=
  { L with alist := (), arecs := fun a => { L.arecs a with sinsts := lists a } }

/-- The lists are those that the links show, and an instance is on the list of its own A record only. -/
structure Coherent (L : Threaded fuel n k) (lists : Fin n → List (Fin n)) : Prop where
  shows : ∀ a, L.alist.Shows (L.arecs a).sinsts (lists a)
  nodup : ∀ a, (lists a).Nodup
  points : ∀ a, ∀ s ∈ lists a, (L.sinsts s).arec = some a
  used : ∀ a, ∀ s ∈ lists a, s ∉ L.sinstsFree

def Mirrors (L : Threaded fuel n k) (q : Querier n k) : Prop := ∃ lists, Coherent L lists ∧ q = L.mirror lists

def MirrorsOff (s : Fin n) (L : Threaded fuel n k) (q : Querier n k) : Prop :=
  ∃ lists, Coherent L lists ∧ q = L.mirror lists ∧ ∀ a, s ∉ lists a

def MirrorsWith {α : Type} (x : Threaded fuel n k × α) (y : Querier n k × α) : Prop := Mirrors x.1 y.1 ∧ x.2 = y.2

section state
variable {L L' : Threaded fuel n k} {lists : Fin n → List (Fin n)} {s a : Fin n} {i : ServiceInstance n k}

theorem Coherent.frame {M : Threaded fuel n k} (h : Coherent L lists) (halist : M.alist = L.alist)
    (hheads : ∀ a, (M.arecs a).sinsts = (L.arecs a).sinsts) (hpoints : ∀ s, (M.sinsts s).arec = (L.sinsts s).arec)
    (hfree : M.sinstsFree ⊆ L.sinstsFree) : Coherent M lists where
  shows a := by
    rw [halist, hheads a]
    exact h.shows a
  nodup := h.nodup
  points a s hs := (hpoints s).trans (h.points a s hs)
  used a s hs hmem := h.used a s hs (hfree hmem)

theorem Coherent.setSinst (h : Coherent L lists) (hi : i.arec = (L.sinsts s).arec) :
    Coherent (L.setSinst s i) lists :=
  h.frame rfl (fun _ => rfl) (fun t => congrFun (field_update_same (g := ServiceInstance.arec) (f := L.sinsts) hi) t)
    (List.Subset.refl _)

theorem Coherent.setSinst_off (h : Coherent L lists) (hs : ∀ a, s ∉ lists a) :
    Coherent (L.setSinst s i) lists where
  shows := h.shows
  nodup := h.nodup
  points a t ht := by
    have hts : t ≠ s := fun hts => hs a (hts ▸ ht)
    rw [show (L.setSinst s i).sinsts t = L.sinsts t from update_of_ne hts ..]
    exact h.points a t ht
  used := h.used

theorem Coherent.resetLink (h : Coherent L lists) (hs : ∀ a, s ∉ lists a) : Coherent (L.resetLink s) lists where
  shows a := (h.shows a).congr (fun t ht => update_of_ne (show t ≠ s from fun hts => hs a (hts ▸ ht)) ..)
  nodup := h.nodup
  points := h.points
  used := h.used

theorem Coherent.off_of_free (h : Coherent L lists) (hs : s ∈ L.sinstsFree) (a : Fin n) : s ∉ lists a :=
  fun hmem => h.used a s hmem hs

theorem Coherent.off_of_none (h : Coherent L lists) (hs : (L.sinsts s).arec = none) (a : Fin n) : s ∉ lists a := by
  intro hmem
  have hpoint := h.points a s hmem
  rw [hs] at hpoint
  cases hpoint

section relist
variable {r : ARec n (Option (Fin n))} {l : Links fuel n} {xs : List (Fin n)}

/-- An A record is written, and its list is replaced by what the new links show. -/
theorem Coherent.relist (h : Coherent L lists) (hxs : l.Shows r.sinsts xs) (hnodup : xs.Nodup)
    (hsub : ∀ t ∈ xs, t ∈ lists a)
    (hothers : ∀ t, t ∉ lists a → l.next t = L.alist.next t) :
    Coherent ({ L with alist := l }.setArec a r) (update lists a xs) where
  shows b := by
    show l.Shows (update L.arecs a r b).sinsts (update lists a xs b)
    by_cases hb : b = a
    · rw [hb, update_self, update_self]
      exact hxs
    · rw [update_of_ne hb, update_of_ne hb]
      refine (h.shows b).congr (fun t ht => hothers t (fun hta => ?_))
      exact hb (some.inj ((h.points b t ht).symm.trans (h.points a t hta)))
  nodup b := by
    by_cases hb : b = a
    · rw [hb, update_self]
      exact hnodup
    · rw [update_of_ne hb]
      exact h.nodup b
  points b t ht := by
    by_cases hb : b = a
    · rw [hb, update_self] at ht
      rw [hb]
      exact h.points a t (hsub t ht)
    · rw [update_of_ne hb] at ht
      exact h.points b t ht
  used b t ht := by
    by_cases hb : b = a
    · rw [hb, update_self] at ht
      exact h.used a t (hsub t ht)
    · rw [update_of_ne hb] at ht
      exact h.used b t ht

theorem mirror_relist (L : Threaded fuel n k) (lists : Fin n → List (Fin n)) (a : Fin n) (r : ARec n (Option (Fin n)))
    (l : Links fuel n) (xs : List (Fin n)) :
    ({ L with alist := l }.setArec a r).mirror (update lists a xs) =
      (L.mirror lists).setArec a { r with sinsts := xs } := by
  unfold Querier.mirror Querier.setArec
  congr 1
  funext b
  by_cases hb : b = a
  · rw [hb]
    simp
  · simp [hb]

theorem Coherent.setArec (h : Coherent L lists) (hr : r.sinsts = (L.arecs a).sinsts) : Coherent (L.setArec a r) lists :=
  h.frame rfl (fun b => congrFun (field_update_same (g := ARec.sinsts) (f := L.arecs) hr) b)
    (fun _ => rfl) (List.Subset.refl _)

theorem mirror_setArec (L : Threaded fuel n k) (lists : Fin n → List (Fin n)) (a : Fin n)
    (r : ARec n (Option (Fin n))) :
    (L.setArec a r).mirror lists = (L.mirror lists).setArec a { r with sinsts := lists a } := by
  rw [← mirror_relist L lists a r L.alist, update_eq_self]

theorem Coherent.mirrors_setArec (h : Coherent L lists) (r : ARec n (Option (Fin n)))
    (hr : r.sinsts = (L.arecs a).sinsts) :
    Mirrors (L.setArec a r) ((L.mirror lists).setArec a { r with sinsts := lists a }) :=
  ⟨lists, h.setArec hr, (mirror_setArec L lists a r).symm⟩

end relist

/-- The instance is taken off the list of its A record in both readings, or is on it in neither. -/
theorem Coherent.remove (h : Coherent L lists) (ha : (L.sinsts s).arec = some a) :
    (∃ head l, AList.remove s (L.arecs a).sinsts L.alist = some (head, l) ∧
      slistRemove s (lists a) = some ((lists a).erase s) ∧
      head.isNone = ((lists a).erase s).isEmpty ∧
      Coherent ({ L with alist := l }.setArec a { L.arecs a with sinsts := head })
        (update lists a ((lists a).erase s)) ∧
      ∀ b, s ∉ update lists a ((lists a).erase s) b) ∨
    (AList.remove s (L.arecs a).sinsts L.alist = none ∧ slistRemove s (lists a) = none) := by
  by_cases hs : s ∈ lists a
  · obtain ⟨head, l, hrem, hshows, hothers⟩ := (h.shows a).remove_of_mem (h.nodup a) hs
    refine .inl ⟨head, l, hrem, if_pos hs, ?_, ?_, ?_⟩
    · rw [hshows.head_eq]
      cases (lists a).erase s <;> rfl
    · exact h.relist hshows ((h.nodup a).erase s) (fun t => mem_of_mem_erase) hothers
    · intro b
      by_cases hb : b = a
      · rw [hb, update_self]
        exact fun hmem => ((h.nodup a).mem_erase_iff.mp hmem).1 rfl
      · rw [update_of_ne hb]
        exact fun hmem => hb (some.inj ((h.points b s hmem).symm.trans ha))
  · exact .inr ⟨(h.shows a).remove_of_not_mem hs, if_neg hs⟩

end state

section instances
variable {L L' : Threaded fuel n k} {lists : Fin n → List (Fin n)} {s a : Fin n} {elapsed : Nat}

theorem leaveHost_mirrors (h : Coherent L lists) :
    Option.Rel (MirrorsOff s) (leaveHost L s) (leaveHost (L.mirror lists) s) := by
  unfold leaveHost
  cases ha : (L.sinsts s).arec with
  | none =>
    have ha' : ((L.mirror lists).sinsts s).arec = none := ha
    simp only [ha']
    exact .some ⟨lists, h, rfl, h.off_of_none ha⟩
  | some a =>
    have ha' : ((L.mirror lists).sinsts s).arec = some a := ha
    simp only [ha', leaveArec_eq]
    unfold leaveArec
    rcases h.remove ha with ⟨head, l, hrem, hlist, hempty, hcoh, hoff⟩ | ⟨hrem, hlist⟩
    · have hlist' : slistRemove s ((L.mirror lists).arecs a).sinsts = some ((lists a).erase s) := hlist
      simp only [hrem, hlist', bind_eq_bind, bind_some]
      have hiff : AList.isEmpty (Links fuel n) head = true ↔ (lists a).erase s = [] := by
        rw [← List.isEmpty_iff, ← hempty]
        rfl
      simp only [hiff]
      refine rel_ite (fun _ => rel_bind_same (fun active _ => .some ?_)) (fun _ => .some ?_)
      · exact ⟨_, hcoh.frame rfl (fun _ => rfl) (fun _ => rfl) (List.Subset.refl _),
          congrArg (fun q : Querier n k => { q with arecsActive := active, arecsFree := a :: q.arecsFree })
            (mirror_relist L lists a { L.arecs a with sinsts := head } l _).symm, hoff⟩
      · exact ⟨_, hcoh, (mirror_relist L lists a { L.arecs a with sinsts := head } l _).symm, hoff⟩
    · have hlist' : slistRemove s ((L.mirror lists).arecs a).sinsts = none := hlist
      simp only [hrem, hlist', bind_eq_bind, bind_none]
      exact .none

theorem cleanupSinst_mirrors (h : Coherent L lists) :
    Option.Rel Mirrors (cleanupSinst L s) (cleanupSinst (L.mirror lists) s) := by
  unfold cleanupSinst
  refine rel_bind_same (fun c _ => rel_bind_same (fun members _ => rel_bind (leaveHost_mirrors (s := s) ?_) ?_))
  · exact h.frame rfl (fun _ => rfl) (fun _ => rfl) (List.Subset.refl _)
  · rintro L' q' ⟨lists', h', rfl, hoff⟩
    refine .some ⟨lists', ?_, rfl⟩
    refine Coherent.setSinst (L := { L' with sinstsFree := s :: L'.sinstsFree }) ⟨h'.shows, h'.nodup, h'.points, ?_⟩ rfl
    intro b t ht hmem
    rcases mem_cons.mp hmem with rfl | hmem
    · exact hoff b ht
    · exact h'.used b t ht hmem

theorem takeOff_mirrors (h : Coherent L lists) :
    Option.Rel (fun x y => MirrorsOff s x.1 y.1 ∧ x.2 = y.2) (takeOff L s a) (takeOff (L.mirror lists) s a) := by
  rw [takeOff_eq]
  unfold takeOff
  cases ha : (L.sinsts s).arec with
  | none =>
    have ha' : ((L.mirror lists).sinsts s).arec = none := ha
    simp only [ha']
    exact .some ⟨⟨lists, h, rfl, h.off_of_none ha⟩, rfl⟩
  | some old =>
    have ha' : ((L.mirror lists).sinsts s).arec = some old := ha
    simp only [ha']
    rcases h.remove ha with ⟨head, l, hrem, hlist, hempty, hcoh, hoff⟩ | ⟨hrem, hlist⟩
    · have hlist' : slistRemove s ((L.mirror lists).arecs old).sinsts = some ((lists old).erase s) := hlist
      simp only [hrem, hlist', bind_eq_bind, bind_some]
      exact .some ⟨⟨_, hcoh, (mirror_relist L lists old { L.arecs old with sinsts := head } l _).symm, hoff⟩, rfl⟩
    · have hlist' : slistRemove s ((L.mirror lists).arecs old).sinsts = none := hlist
      simp only [hrem, hlist', bind_eq_bind, bind_none]
      exact .none

/-- A slot that is on no list is put at the head of one. -/
theorem Coherent.insert {i : ServiceInstance n k} (h : Coherent L lists) (hoff : ∀ b, s ∉ lists b)
    (hused : s ∉ L.sinstsFree)
    (hi : i.arec = some a) :
    Coherent (Querier.setSinst (Querier.setArec
      { L with alist := (⟨update L.alist.next s (L.arecs a).sinsts⟩ : Links fuel n) } a
      { L.arecs a with sinsts := some s }) s i) (update lists a (s :: lists a)) where
  shows b := by
    show Links.Shows ⟨update L.alist.next s (L.arecs a).sinsts⟩ (update L.arecs a _ b).sinsts
      (update lists a _ b)
    have hkept : ∀ b, Links.Shows ⟨update L.alist.next s (L.arecs a).sinsts⟩ (L.arecs b).sinsts (lists b) :=
      fun b => (h.shows b).congr (fun t ht => update_of_ne (show t ≠ s from fun hts => hoff b (hts ▸ ht)) ..)
    by_cases hb : b = a
    · rw [hb, update_self, update_self]
      refine ⟨rfl, ?_⟩
      rw [show (⟨update L.alist.next s (L.arecs a).sinsts⟩ : Links fuel n).next s = (L.arecs a).sinsts from
        update_self ..]
      exact hkept a
    · rw [update_of_ne hb, update_of_ne hb]
      exact hkept b
  nodup b := by
    by_cases hb : b = a
    · rw [hb, update_self]
      exact nodup_cons.mpr ⟨hoff a, h.nodup a⟩
    · rw [update_of_ne hb]
      exact h.nodup b
  points b t ht := by
    show (update L.sinsts s i t).arec = some b
    by_cases hts : t = s
    · rw [hts, update_self, hi]
      by_cases hb : b = a
      · rw [hb]
      · rw [update_of_ne hb, hts] at ht
        exact absurd ht (hoff b)
    · rw [update_of_ne hts]
      by_cases hb : b = a
      · rw [hb, update_self] at ht
        rw [hb]
        exact h.points a t (mem_of_ne_of_mem hts ht)
      · rw [update_of_ne hb] at ht
        exact h.points b t ht
  used b t ht := by
    by_cases hts : t = s
    · rw [hts]
      exact hused
    · by_cases hb : b = a
      · rw [hb, update_self] at ht
        exact h.used a t (mem_of_ne_of_mem hts ht)
      · rw [update_of_ne hb] at ht
        exact h.used b t ht

theorem takeOff_free {q q' : Querier n k} {moved : Int} (h : takeOff q s a = some (q', moved)) :
    q'.sinstsFree = q.sinstsFree :=
  congrArg Registry.free (takeOff_eq_some h).1

theorem setArec_mirrors (h : Coherent L lists) (hs : s ∉ L.sinstsFree) :
    Option.Rel MirrorsWith (setArec L s a) (setArec (L.mirror lists) s a) := by
  unfold setArec
  have hrel := takeOff_mirrors (a := a) (s := s) h
  cases htake : takeOff (L.mirror lists) s a with
  | none =>
    rw [htake] at hrel
    generalize takeOff L s a = x at hrel ⊢
    cases hrel
    exact .none
  | some y =>
    rw [htake] at hrel
    obtain ⟨⟨L', moved⟩, hL, ⟨lists', h', hq, hoff⟩, hm⟩ := rel_some_right hrel
    obtain ⟨q', moved'⟩ := y
    obtain rfl : q' = L'.mirror lists' := hq
    obtain rfl : moved = moved' := hm
    have hfree : L'.sinstsFree = L.sinstsFree := takeOff_free htake
    have hused : s ∉ L'.sinstsFree := by
      rw [hfree]
      exact hs
    rw [hL]
    refine .some ⟨⟨_, h'.insert (i := { takeAddress (L'.sinsts s) (L'.arecs a) with arec := some a })
      hoff hused rfl, ?_⟩, rfl⟩
    exact congrArg (Querier.setSinst · s { takeAddress (L'.sinsts s) (L'.arecs a) with arec := some a })
      (mirror_relist L' lists' a { L'.arecs a with sinsts := some s } _ _).symm

theorem rel_mirrors {γ δ : Type} {r : γ → δ → Prop} {x : Option (Threaded fuel n k)} {y : Option (Querier n k)}
    {f : Threaded fuel n k → Option γ} {g : Querier n k → Option δ} (h : Option.Rel Mirrors x y)
    (hfg : ∀ L lists, Coherent L lists → Option.Rel r (f L) (g (L.mirror lists))) :
    Option.Rel r (x >>= f) (y >>= g) := by
  refine rel_bind h ?_
  rintro L q ⟨lists, h, rfl⟩
  exact hfg L lists h

theorem rel_mirrorsWith {α γ δ : Type} {r : γ → δ → Prop} {x : Option (Threaded fuel n k × α)}
    {y : Option (Querier n k × α)}
    {f : Threaded fuel n k × α → Option γ} {g : Querier n k × α → Option δ} (h : Option.Rel MirrorsWith x y)
    (hfg : ∀ L lists v, Coherent L lists → Option.Rel r (f (L, v)) (g (L.mirror lists, v))) :
    Option.Rel r (x >>= f) (y >>= g) := by
  refine rel_bind h ?_
  rintro ⟨L, v⟩ ⟨q, w⟩ ⟨⟨lists, h, hq⟩, hv⟩
  obtain rfl : q = L.mirror lists := hq
  obtain rfl : v = w := hv
  exact hfg L lists v h

theorem callbackOn_mirrors (h : Coherent L lists) (status : Status) :
    Option.Rel Mirrors (callbackOn L s status) (callbackOn (L.mirror lists) s status) := by
  unfold callbackOn doCallback
  exact rel_bind_same (fun c _ => .some ⟨lists, h.frame rfl (fun _ => rfl) (fun _ => rfl) (List.Subset.refl _), rfl⟩)

section srv
variable {m : Message} {r : Resource} {walk : Nat}

theorem hostSrv_mirrors (h : Coherent L lists) (hs : s ∉ L.sinstsFree)
    (hfits : findArec walk L m (srvTarget r) = some none → L.arecsFree = [] → (L.sinsts s).arec = none) :
    Option.Rel MirrorsWith (hostSrv walk L s m r) (hostSrv walk (L.mirror lists) s m r) := by
  unfold hostSrv
  refine rel_bind_same (z := findArec walk L m (srvTarget r)) (fun found hfound => ?_)
  cases found with
  | some a => exact setArec_mirrors h hs
  | none =>
    cases hfree : L.arecsFree with
    | nil =>
      have hfree' : (L.mirror lists).arecsFree = [] := hfree
      simp only [hfree']
      exact .some ⟨⟨lists, h.setSinst (hfits hfound hfree).symm, rfl⟩, rfl⟩
    | cons a free =>
      have hfree' : (L.mirror lists).arecsFree = a :: free := hfree
      simp only [hfree']
      refine rel_bind_same (fun copied _ => ?_)
      have hnew := h.relist (a := a) (r := { sinsts := none, fqdn := copied.1 }) (show L.alist.Shows none [] from rfl) nodup_nil
        nofun (fun _ _ => rfl)
      have hnew := hnew.frame (M := Querier.setArec { L with arecsFree := free, arecsActive := a :: L.arecsActive } a
        { sinsts := none, fqdn := copied.1 }) rfl (fun _ => rfl) (fun _ => rfl) (List.Subset.refl _)
      have hagree := setArec_mirrors (a := a) hnew hs
      rw [show Querier.mirror _ (update lists a []) = _ from
        congrArg (fun q : Querier n k => { q with arecsFree := free, arecsActive := a :: L.arecsActive })
          (mirror_relist L lists a { sinsts := none, fqdn := copied.1 } L.alist [])] at hagree
      exact hagree

theorem updateSrv_mirrors (h : Coherent L lists) (hs : s ∉ L.sinstsFree) (hfits : srvFits walk m L r s = true) :
    Option.Rel MirrorsWith (updateSrv walk L s m r elapsed) (updateSrv walk (L.mirror lists) s m r elapsed) := by
  unfold updateSrv
  refine rel_ite (fun _ => ?_) (fun httl => ?_)
  · exact rel_mirrors (cleanupSinst_mirrors h) (fun L' lists' h' => .some ⟨⟨lists', h', rfl⟩, rfl⟩)
  · refine rel_mirrorsWith (hostSrv_mirrors (s := s) (show Coherent _ lists from h.setSinst rfl) hs ?_)
      (fun L' lists' moved h' => ?_)
    · intro hfind hfree
      have harec := of_decide_eq_true hfits httl hfind hfree
      show (update L.sinsts s _ s).arec = none
      rw [update_self]
      exact harec
    · exact .some ⟨⟨lists', h'.setSinst rfl, rfl⟩, rfl⟩

end srv

theorem applyElapsed_mirrors (h : Coherent L lists) :
    Option.Rel MirrorsWith (applyElapsed L s elapsed) (applyElapsed (L.mirror lists) s elapsed) := by
  unfold applyElapsed
  refine rel_ite (fun _ => rel_ite (fun _ => ?_) (fun _ => ?_)) (fun _ => ?_)
  · exact rel_mirrors (cleanupSinst_mirrors (show Coherent _ lists from h.setSinst rfl))
      (fun L' lists' h' => .some ⟨⟨lists', h', rfl⟩, rfl⟩)
  · cases hask : mdnsAddQuestion L.tx ((L.sinsts s).age elapsed).fqsn tAny cIn with
    | none =>
      have hask' : mdnsAddQuestion (L.mirror lists).tx
        (((L.mirror lists).sinsts s).age elapsed).fqsn tAny cIn = none := hask
      simp only [hask']
      exact .some ⟨⟨lists, h.setSinst rfl, rfl⟩, rfl⟩
    | some tx =>
      have hask' : mdnsAddQuestion (L.mirror lists).tx
        (((L.mirror lists).sinsts s).age elapsed).fqsn tAny cIn = some tx := hask
      simp only [hask']
      have htx := h.frame (M := { L with tx }) rfl (fun _ => rfl) (fun _ => rfl) (List.Subset.refl _)
      exact .some ⟨⟨lists, htx.setSinst rfl, rfl⟩, rfl⟩
  · exact .some ⟨⟨lists, h.setSinst rfl, rfl⟩, rfl⟩

theorem sinstChanges_mirrors {walk : Nat} {e : SinstEvent n} (h : Coherent L lists)
    (hs : ∀ u, e = .got u → s ∉ L.sinstsFree) (hfits : ∀ m r, e = .got (.srv m r) → srvFits walk m L r s = true) :
    Option.Rel MirrorsWith (sinstChanges walk L s e elapsed) (sinstChanges walk (L.mirror lists) s e elapsed) := by
  have hsame : MirrorsWith (L, (0 : Int)) (L.mirror lists, 0) := ⟨⟨lists, h, rfl⟩, rfl⟩
  cases e with
  | lostArec => exact .some hsame
  | addQuestions => exact .some hsame
  | got u =>
    cases u with
    | srv m r => exact updateSrv_mirrors h (hs _ rfl) (hfits m r rfl)
    | arec a => exact setArec_mirrors h (hs _ rfl)
    | txt m r =>
      refine rel_bind_same (z := updateTxt walk (L.sinsts s) m.data r) (fun new hnew => ?_)
      have harec : new.1.arec = (L.sinsts s).arec := by
        rcases updateTxt_eq_some (j := new.1) hnew with ⟨hsame, -⟩ | ⟨_, _, _, hnew, -⟩
        · rw [hsame]
        · rw [hnew]
      exact .some ⟨⟨lists, h.setSinst harec, rfl⟩, rfl⟩

section react
variable {changes : Int} {e : SinstEvent n}

theorem sinstReact_lost_mirrors (h : Coherent L lists) :
    Option.Rel MirrorsWith (sinstReact L s .lostArec changes elapsed)
      (sinstReact (L.mirror lists) s .lostArec changes elapsed) := by
  have hshown : Option.Rel MirrorsWith
      (do let q ← cleanupSinst L s; let q ← callbackOn q s .disappeared; return (q, changes))
      (do let q ← cleanupSinst (L.mirror lists) s; let q ← callbackOn q s .disappeared; return (q, changes)) :=
    rel_mirrors (cleanupSinst_mirrors h) (fun L₁ lists₁ h₁ =>
      rel_mirrors (callbackOn_mirrors h₁ _) (fun L₂ lists₂ h₂ => .some ⟨⟨lists₂, h₂, rfl⟩, rfl⟩))
  unfold sinstReact
  have hst' : ((L.mirror lists).sinsts s).state = (L.sinsts s).state := rfl
  rw [hst']
  cases (L.sinsts s).state with
  | init => exact rel_mirrors (cleanupSinst_mirrors h) (fun L₁ lists₁ h₁ => .some ⟨⟨lists₁, h₁, rfl⟩, rfl⟩)
  | clean => exact hshown
  | updating => exact hshown

theorem sinstReact_addQuestions_mirrors (h : Coherent L lists) :
    Option.Rel MirrorsWith (sinstReact L s .addQuestions changes elapsed)
      (sinstReact (L.mirror lists) s .addQuestions changes elapsed) := by
  unfold sinstReact
  have hst' : ((L.mirror lists).sinsts s).state = (L.sinsts s).state := rfl
  rw [hst']
  cases (L.sinsts s).state with
  | init => exact rel_mirrorsWith (applyElapsed_mirrors h) (fun L₁ lists₁ _ h₁ => .some ⟨⟨lists₁, h₁, rfl⟩, rfl⟩)
  | clean =>
    refine rel_mirrorsWith (applyElapsed_mirrors h)
      (fun L₁ lists₁ _ h₁ => rel_ite (fun _ => ?_) (fun _ => rel_ite (fun _ => ?_) (fun _ => ?_)))
    · exact rel_mirrors (callbackOn_mirrors h₁ _) (fun L₂ lists₂ h₂ => .some ⟨⟨lists₂, h₂, rfl⟩, rfl⟩)
    · exact .some ⟨⟨lists₁, Coherent.setSinst (h₁.setSinst rfl) rfl, rfl⟩, rfl⟩
    · exact .some ⟨⟨lists₁, h₁, rfl⟩, rfl⟩
  | updating =>
    refine rel_mirrorsWith (applyElapsed_mirrors h) (fun L₁ lists₁ _ h₁ => rel_ite (fun _ => ?_) (fun _ => ?_))
    · exact rel_mirrors (callbackOn_mirrors h₁ _) (fun L₂ lists₂ h₂ => .some ⟨⟨lists₂, h₂, rfl⟩, rfl⟩)
    · exact .some ⟨⟨lists₁, h₁, rfl⟩, rfl⟩

theorem sinstReact_got_mirrors {u : News n} (h : Coherent L lists) :
    Option.Rel MirrorsWith (sinstReact L s (.got u) changes elapsed)
      (sinstReact (L.mirror lists) s (.got u) changes elapsed) := by
  have hsame : MirrorsWith (L, changes) (L.mirror lists, changes) := ⟨⟨lists, h, rfl⟩, rfl⟩
  have htold : ∀ status, Option.Rel MirrorsWith (do let q ← callbackOn L s status; return (q, changes))
      (do let q ← callbackOn (L.mirror lists) s status; return (q, changes)) :=
    fun status => rel_mirrors (callbackOn_mirrors h status) (fun L₁ lists₁ h₁ => .some ⟨⟨lists₁, h₁, rfl⟩, rfl⟩)
  have hset : ∀ status, Option.Rel MirrorsWith (do let q ← callbackOn L s status; return (q.setState s .clean, changes))
      (do let q ← callbackOn (L.mirror lists) s status; return (q.setState s .clean, changes)) :=
    fun status => rel_mirrors (callbackOn_mirrors h status)
      (fun L₁ lists₁ h₁ => .some ⟨⟨lists₁, h₁.setSinst rfl, rfl⟩, rfl⟩)
  unfold sinstReact
  have hst' : ((L.mirror lists).sinsts s).state = (L.sinsts s).state := rfl
  rw [hst']
  cases (L.sinsts s).state with
  | init => exact rel_ite (fun _ => .some hsame) (fun _ => rel_ite (fun _ => hset _) (fun _ => .some hsame))
  | clean =>
    refine rel_ite (fun _ => .some hsame) (fun _ =>
      rel_ite (fun _ => htold _) (fun _ => rel_ite (fun _ => htold _) (fun _ => ?_)))
    exact .some ⟨⟨lists, h.setSinst rfl, rfl⟩, rfl⟩
  | updating =>
    exact rel_ite (fun _ => .some hsame) (fun _ => rel_ite (fun _ => htold _)
      (fun _ => rel_ite (fun _ => hset _) (fun _ => .some hsame)))

theorem updateSinst_mirrors {walk : Nat} (h : Coherent L lists) (hs : ∀ u, e = .got u → s ∉ L.sinstsFree)
    (hfits : ∀ m r, e = .got (.srv m r) → srvFits walk m L r s = true) :
    Option.Rel MirrorsWith (updateSinst walk L s e elapsed) (updateSinst walk (L.mirror lists) s e elapsed) := by
  refine rel_mirrorsWith (sinstChanges_mirrors h hs hfits) (fun L₁ lists₁ changes h₁ => rel_mirrorsWith ?_
    (fun L₂ lists₂ _ h₂ => .some ⟨⟨lists₂, h₂, rfl⟩, rfl⟩))
  cases e with
  | lostArec => exact sinstReact_lost_mirrors h₁
  | addQuestions => exact sinstReact_addQuestions_mirrors h₁
  | got u => exact sinstReact_got_mirrors h₁

theorem alertSinst_mirrors (h : Coherent L lists) (hs : ∀ u, e = .got u → s ∉ L.sinstsFree)
    (he : ∀ m r, e ≠ .got (.srv m r)) :
    Option.Rel Mirrors (alertSinst e L s) (alertSinst e (L.mirror lists) s) :=
  rel_map (updateSinst_mirrors h hs (fun m r heq => absurd heq (he m r))) (fun _ _ hr => hr.1)

end react

end instances

end Mdns
