import Mdns.Query.Goodbye
import Mdns.Query.Passed
import Mdns.Query.Standing

/-!
# Announcements that repeat what is known

A response that says of a clean instance and of its host what the cache has already. The text of a
long TXT record runs over what is kept of its data, and SRV targets that were cut off on copying may
leave several A records with one name; then a true repetition is taken for a change.
-/
namespace Mdns
open Lib List Option

variable {n k : Nat} {q₀ q q₁ q' : Querier n k} {s t a : Fin n} {fuel elapsed : Nat} {m m' : Message} {r : Resource}

section repetition

def Querier.Consistent (q : Querier n k) : Prop :=
  ∀ s, s ∉ q.sinstsFree → ∀ a, s ∈ (q.arecs a).sinsts ↔ (q.sinsts s).arec = some a

def Querier.HostAt (q : Querier n k) (a : Fin n) (p : Src) (off : Nat) : Prop :=
  ∃ N, Expands (.plain (q.arecs a).fqdn) 0 N ∧ Expands p off N

/-- The text of the instance is what `update_txt` has left of a record with the same data. -/
def TextOf (i : ServiceInstance n k) (p : Mem) (r : Resource) : Prop :=
  ∃ (fuel : Nat) (i₀ j : ServiceInstance n k) (p₀ : Mem) (r₀ : Resource), updateTxt fuel i₀ p₀ r₀ = some (j, 1) ∧
    r₀.rdlength = r.rdlength ∧ slice p₀ r₀.rdata r₀.rdlength = slice p r.rdata r.rdlength ∧
    i.keyvals = j.keyvals ∧ i.rawkeyvals = j.rawkeyvals ∧ i.rawkvlen = j.rawkvlen

/-- The records about the instance and its host are no goodbyes and say what the cache has. -/
structure Message.Repeats (m : Message) (q : Querier n k) (s a : Fin n) : Prop where
  ptrs : ∀ r ∈ m.ptrs, Expands (.packet m.data) r.rdata (plainLabels (q.sinsts s).fqsn) → r.ttl ≠ 0
  txts : ∀ r ∈ m.txts, Expands (.packet m.data) r.name (plainLabels (q.sinsts s).fqsn) → TextOf (q.sinsts s) m.data r
  srvs : ∀ r ∈ m.srvs, Expands (.packet m.data) r.name (plainLabels (q.sinsts s).fqsn) →
    r.ttl ≠ 0 ∧ srvPort m.data r = (q.sinsts s).port ∧ q.HostAt a (.packet m.data) (srvTarget r)
  as : ∀ r ∈ m.as, q.HostAt a (.packet m.data) r.name → r.ttl ≠ 0 ∧ getUint32 m.data r.rdata = (q.sinsts s).ipaddr

/-- Nothing is heard of the instance, and it stays clean with its data. -/
structure Undisturbed (q : Querier n k) (s : Fin n) (q' : Querier n k) : Prop where
  used : s ∉ q'.sinstsFree
  silent : ∃ new, q'.log = new ++ q.log ∧ ∀ e ∈ new, e.slot ≠ some s
  state : (q'.sinsts s).state = .clean
  port : (q'.sinsts s).port = (q.sinsts s).port
  ipaddr : (q'.sinsts s).ipaddr = (q.sinsts s).ipaddr
  keyvals : (q'.sinsts s).keyvals = (q.sinsts s).keyvals

section guards
variable (s : Fin n) (fuel : Nat) (m : Message) (q : Querier n k) (r : Resource)

end guards

end repetition

section settled
variable {i : ServiceInstance n k} {ok : Bool}

/-- Along the way: the slot is as it was, on the list of its A record only, which has its address. -/
structure Settled (q₀ : Querier n k) (s a : Fin n) (q : Querier n k) : Prop where
  quiet : Undisturbed q₀ s q
  fqsn : (q.sinsts s).fqsn = (q₀.sinsts s).fqsn
  raw : (q.sinsts s).rawkeyvals = (q₀.sinsts s).rawkeyvals ∧ (q.sinsts s).rawkvlen = (q₀.sinsts s).rawkvlen
  arec : (q.sinsts s).arec = some a
  stands : q.Stands s a
  only : ∀ b, s ∈ (q.arecs b).sinsts → b = a
  host : (q.arecs a).fqdn = (q₀.arecs a).fqdn

theorem Run.settled {G : Guard n k} (h : Run G q) (hc : q.Consistent) (hs : s ∉ q.sinstsFree)
    (hst : (q.sinsts s).state = .clean) (ha : (q.sinsts s).arec = some a) : Settled q s a q := by
  have honly : ∀ b, s ∈ (q.arecs b).sinsts → b = a := by
    intro b hb
    have hb := (hc s hs b).mp hb
    rw [ha] at hb
    exact (some.inj hb).symm
  obtain ⟨b, hb⟩ := h.stood s hs (.inl hst)
  refine ⟨⟨hs, ⟨[], rfl, nofun⟩, hst, rfl, rfl, rfl⟩, rfl, ⟨rfl, rfl⟩, ha, ?_, honly, rfl⟩
  rw [← honly b hb.2.1]
  exact hb

theorem Apart.settled (h : Apart q s q') (hs : Settled q₀ s a q) : Settled q₀ s a q' := by
  obtain ⟨⟨hused, ⟨new, hlog, hnew⟩, hst, hport, hip, hkv⟩, hname, hraw, harec, hstands, honly, hhost⟩ := hs
  obtain ⟨-, -, -, hfqdn⟩ := h.listed a hstands.1 hstands.2.1
  obtain ⟨new', hlog', hnew'⟩ := h.log
  have hentry := h.entry
  refine ⟨⟨fun hfree => hused (h.free.mp hfree), ⟨new' ++ new, ?_, ?_⟩, ?_, ?_, ?_, ?_⟩, ?_, ?_, ?_, h.stands hstands,
    fun b hb => honly b (h.only b hb), hfqdn.trans hhost⟩
  · rw [hlog', hlog, append_assoc]
  · intro e he
    exact (mem_append.mp he).elim (hnew' e) (hnew e)
  all_goals rw [hentry]; assumption

structure SameWord (i j : ServiceInstance n k) : Prop where
  fqsn : i.fqsn = j.fqsn
  port : i.port = j.port
  ipaddr : i.ipaddr = j.ipaddr
  keyvals : i.keyvals = j.keyvals
  rawkeyvals : i.rawkeyvals = j.rawkeyvals
  rawkvlen : i.rawkvlen = j.rawkvlen
  arec : i.arec = j.arec
  state : i.state = j.state

theorem Settled.set (hs : Settled q₀ s a q) (h : SameWord i (q.sinsts s)) :
    Settled q₀ s a (q.setSinst s i) := by
  obtain ⟨⟨hused, hlog, hst, hport, hip, hkv⟩, hname, hraw, harec, hstands, honly, hhost⟩ := hs
  have hself := setSinst_self q s i
  refine ⟨⟨hused, hlog, ?_, ?_, ?_, ?_⟩, ?_, ?_, ?_, ⟨hstands.1, hstands.2.1, ?_⟩, honly, hhost⟩
  · rw [hself, h.state, hst]
  · rw [hself, h.port, hport]
  · rw [hself, h.ipaddr, hip]
  · rw [hself, h.keyvals, hkv]
  · rw [hself, h.fqsn, hname]
  · rw [hself, h.rawkeyvals, h.rawkvlen]
    exact hraw
  · rw [hself, h.arec, harec]
  · rw [hself, h.ipaddr]
    exact hstands.2.2

theorem Settled.retime {b : Fin n} {rec : ARec n} (hs : Settled q₀ s a q) (h : SameHost rec (q.arecs b)) :
    Settled q₀ s a (q.setArec b rec) := (apart_retime s h).settled hs

theorem TakesPtr.settled {ptr : Resource} (h : TakesPtr fuel elapsed q m ptr q' m') (ht : q.Tidy)
    (hptr : Expands (.packet m.data) ptr.rdata (plainLabels (q₀.sinsts s).fqsn) → ptr.ttl ≠ 0) (hs : Settled q₀ s a q) :
    Settled q₀ s a q' := by
  have hnamed : ∀ {c}, findServiceInstance fuel q c m ptr.rdata = some (some s) → ptr.ttl ≠ 0 := by
    intro c hinst
    apply hptr
    rw [← hs.fqsn]
    exact ((findServiceInstance_back ht hinst s).mp rfl).2.2
  have hfree : ∀ {t free}, q.sinstsFree = t :: free → s ≠ t := by
    rintro t free hfree rfl
    apply hs.quiet.used
    rw [hfree]
    exact mem_cons_self ..
  cases h with
  | ignored _ => exact hs
  | @goodbye c t q₁ _ _ hinst httl hbye hclean =>
    have hst : s ≠ t := by
      rintro rfl
      exact hnamed hinst httl
    refine ((cleaned_of_cleanupSinst hclean).apart hst).settled ?_
    unfold sayGoodbye at hbye
    split at hbye
    · cases hbye
      exact hs
    · exact (apart_callbackOn hbye hst).settled hs
  | @renewed c t _ _ _ =>
    by_cases hst : s = t
    · rw [← hst]
      exact hs.set ⟨rfl, rfl, rfl, rfl, rfl, rfl, rfl, rfl⟩
    · exact (apart_setSinst _ hst).settled hs
  | failed _ _ hslot _ => exact (apart_setSinst _ (hfree hslot)).settled hs
  | @adopted c t free i _ _ hslot _ =>
    have hst := hfree hslot
    have htaken : Apart q s
      ({ q with sinstsFree := free }.setSmon c { q.smons c with sinsts := t :: (q.smons c).sinsts }) := by
      refine ⟨rfl, ?_, fun _ ha hmem => ⟨ha, hmem, rfl, rfl⟩, fun _ hmem => hmem, [], rfl, nofun⟩
      rw [hslot, mem_cons]
      exact (or_iff_right hst).symm
    exact (htaken.trans (apart_setSinst _ hst)).settled hs
  | unheard _ _ _ _ => exact hs
  | overflowed _ _ _ _ hover =>
    rcases overflow_eq_some hover with rfl | ⟨report, hslot, -, -, rfl⟩
    · exact hs
    · have hother : Apart q s { q with log := report :: q.log } := by
        refine ⟨rfl, Iff.rfl, fun _ ha hmem => ⟨ha, hmem, rfl, rfl⟩, fun _ hmem => hmem, [report], rfl, ?_⟩
        intro e he
        rw [mem_singleton.mp he, hslot]
        exact nofun
      exact hother.settled hs

theorem Settled.named (hs : Settled q₀ s a q) (ht : q.Tidy) (h : sinstOf fuel q m r = some (some s)) :
    Expands (.packet m.data) r.name (plainLabels (q₀.sinsts s).fqsn) := by
  obtain ⟨-, x, hkey, hrec⟩ := (sinstOf_back ht h s).mp rfl
  rw [← hs.fqsn, (key_eq_some.mp hkey).2]
  exact hrec.name

end settled

section disturbed
variable {status : Status} {e : SinstEvent n} {ret : Int}

def Disturbed (q₀ : Querier n k) (s : Fin n) (q : Querier n k) : Prop :=
  ∃ new, q.log = new ++ q₀.log ∧ ((∃ e ∈ new, e.slot = some s) ∨ (q.sinsts s).state ≠ .clean)

structure Tells (q : Querier n k) (s : Fin n) (q' : Querier n k) : Prop where
  grows : ∃ new, q'.log = new ++ q.log ∧
    ((q'.sinsts s).state = .clean → (q.sinsts s).state = .clean ∨ ∃ e ∈ new, e.slot = some s)

theorem Disturbed.tells (hd : Disturbed q₀ s q) (h : Tells q s q') : Disturbed q₀ s q' := by
  obtain ⟨new, hlog, hor⟩ := hd
  obtain ⟨new', hlog', hclean⟩ := h.grows
  refine ⟨new' ++ new, by rw [hlog', hlog, append_assoc], ?_⟩
  rcases hor with ⟨e, he, hslot⟩ | hst
  · exact .inl ⟨e, mem_append_right new' he, hslot⟩
  · by_cases hst' : (q'.sinsts s).state = .clean
    · obtain ⟨e, he, hslot⟩ := (hclean hst').resolve_left hst
      exact .inl ⟨e, mem_append_left new he, hslot⟩
    · exact .inr hst'

theorem tells_of_state (hlog : q'.log = q.log)
    (hst : (q'.sinsts s).state = .clean → (q.sinsts s).state = .clean) : Tells q s q' :=
  ⟨[], hlog, fun h => .inl (hst h)⟩

theorem Tells.refl (q : Querier n k) (s : Fin n) : Tells q s q := tells_of_state rfl id

theorem Tells.trans (h : Tells q s q₁) (h' : Tells q₁ s q') : Tells q s q' := by
  obtain ⟨new, hlog, hclean⟩ := h.grows
  obtain ⟨new', hlog', hclean'⟩ := h'.grows
  refine ⟨new' ++ new, by rw [hlog', hlog, append_assoc], ?_⟩
  intro hst
  rcases hclean' hst with hst₁ | ⟨e, he, hslot⟩
  · refine (hclean hst₁).imp_right ?_
    rintro ⟨e, he, hslot⟩
    exact ⟨e, mem_append_right new' he, hslot⟩
  · exact .inr ⟨e, mem_append_left new he, hslot⟩

theorem Apart.tells (h : Apart q s q') : Tells q s q' := by
  obtain ⟨new, hlog, -⟩ := h.log
  exact ⟨new, hlog, fun hst => .inl (h.entry ▸ hst)⟩

theorem Cleaned.tells (h : Cleaned q s q') : Tells q s q' := by
  refine tells_of_state h.log ?_
  rw [h.entry]
  exact id

theorem tells_callbackOn (st : SinstState) (h : callbackOn q s status = some q') : Tells q s (q'.setState s st) := by
  obtain ⟨c, -, rfl⟩ := callbackOn_eq_some.mp h
  exact ⟨[_], rfl, fun _ => .inr ⟨_, mem_singleton.mpr rfl, rfl⟩⟩

theorem tells_told (h : callbackOn q s status = some q') : Tells q s q' := by
  obtain ⟨c, -, rfl⟩ := callbackOn_eq_some.mp h
  exact ⟨[_], rfl, fun _ => .inr ⟨_, mem_singleton.mpr rfl, rfl⟩⟩

theorem Reacts.tells {changes : Int} (h : Reacts q s changes elapsed e q') (he : e ≠ .addQuestions) :
    Tells q s q' := by
  cases h with
  | lost _ hc => exact (cleaned_of_cleanupSinst hc).tells
  | lostShown _ hc hcb => exact (cleaned_of_cleanupSinst hc).tells.trans (tells_told hcb)
  | quiet _ => exact .refl _ s
  | pending _ _ _ =>
    refine tells_of_state rfl ?_
    rw [Querier.setState, setSinst_self]
    exact fun hst => absurd hst updating_ne_clean
  | gone _ _ hcb => exact tells_told hcb
  | discovered _ _ _ hcb => exact tells_callbackOn .clean hcb
  | updated _ _ _ _ hcb => exact tells_callbackOn .clean hcb
  | _ => exact absurd rfl he

theorem Hosted.tells (h : Hosted q s a q' ret) : Tells q s q' := by
  refine tells_of_state h.log ?_
  rw [h.entry]
  exact fun hst => (takeAddress_data (q.sinsts s) (q.arecs a)).2.2.2.1 ▸ hst

theorem HostsSrv.tells (h : HostsSrv fuel q s m r q' ret) : Tells q s q' := by
  cases h with
  | found _ hh => exact hh.tells
  | full _ _ =>
    refine tells_of_state rfl ?_
    rw [setSinst_self]
    exact id
  | fresh _ hfree _ hh => exact (apart_enlist hfree _ s).tells.trans hh.tells

theorem TakesSrv.tells (h : TakesSrv fuel q s m r elapsed q' ret) : Tells q s q' := by
  obtain ⟨q₁, moved, hh, rfl, -⟩ := h.hosts
  have hport : Tells q s (q.setSinst s { q.sinsts s with port := srvPort m.data r }) := by
    refine tells_of_state rfl ?_
    rw [setSinst_self]
    exact id
  have htimes : Tells q₁ s (q₁.setSinst s (srvTimes (q₁.sinsts s) r elapsed)) := by
    refine tells_of_state rfl ?_
    rw [setSinst_self]
    exact id
  exact (hport.trans hh.tells).trans htimes

end disturbed

section records

theorem Settled.found (hs : Settled q₀ s a q) (ht : q.Tidy) {off : Nat} {found : Option (Fin n)}
    (hhost : q₀.HostAt a (.packet m.data) off) (h : findArec fuel q m off = some found) : found ≠ none := by
  rintro rfl
  have hactive : a ∈ q.arecsActive := by
    by_contra hnot
    exact hs.stands.1 ((ht.held.hosts.off_iff a).mpr hnot)
  obtain ⟨N, hN, hname⟩ := hhost
  rw [← hs.host] at hN
  have hfalse := (sameName_back (findFirst_none h a hactive)).2.mpr ⟨N, hN, hname⟩
  cases hfalse

theorem Hosted.settled {ret : Int} (h : Hosted q s a q' ret) (hs : Settled q₀ s a q) : Settled q₀ s a q' ∧ ret = 0 := by
  have hip : (takeAddress (q.sinsts s) (q.arecs a)).ipaddr = (q.sinsts s).ipaddr := by
    unfold takeAddress
    split
    · exact hs.stands.2.2
    · rfl
  have hret : ret = 0 := by
    rw [h.ret, hip, if_neg (fun hne => hne rfl), movedFrom, hs.arec, elim_some, if_neg (fun hne => hne rfl)]
  have hentry := h.entry
  obtain ⟨hname, hport, hkv, hst, -⟩ := takeAddress_data (q.sinsts s) (q.arecs a)
  have hraw : (takeAddress (q.sinsts s) (q.arecs a)).rawkeyvals = (q.sinsts s).rawkeyvals ∧
      (takeAddress (q.sinsts s) (q.arecs a)).rawkvlen = (q.sinsts s).rawkvlen := by
    unfold takeAddress
    split
    · exact ⟨rfl, rfl⟩
    · exact ⟨rfl, rfl⟩
  obtain ⟨new, hlog, hnew⟩ := hs.quiet.silent
  refine ⟨⟨⟨h.free ▸ hs.quiet.used, ⟨new, h.log.trans hlog, hnew⟩, ?_, ?_, ?_, ?_⟩, ?_, ⟨?_, ?_⟩, ?_,
    h.stays hret hs.stands,
    ?_, ?_⟩, hret⟩
  · rw [hentry]; exact hst.trans hs.quiet.state
  · rw [hentry]; exact hport.trans hs.quiet.port
  · rw [hentry]; exact hip.trans hs.quiet.ipaddr
  · rw [hentry]; exact hkv.trans hs.quiet.keyvals
  · rw [hentry]; exact hname.trans hs.fqsn
  · rw [hentry]; exact hraw.1.trans hs.raw.1
  · rw [hentry]; exact hraw.2.trans hs.raw.2
  · rw [hentry]
  · intro b hb
    by_contra hba
    rw [h.lists b, link, Function.update_of_ne hba, unlink_apply] at hb
    split at hb
    · exact hba (hs.only b (mem_of_mem_erase hb))
    · exact hba (hs.only b hb)
  · rw [h.arecs a]
    exact hs.host

end records

section examples

end examples

end Mdns
