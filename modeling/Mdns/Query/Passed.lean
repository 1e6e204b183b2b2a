import Mdns.Dname.Agree
import Mdns.Parse.Tiling
import Mdns.Query.Response

/-!
# The names that a response is looked up with

For TXT and SRV records `update_service_cache` looks up the name without its first label, which is
where `dname_label_next` leads. That is NULL when a zero byte follows the label.
-/
namespace Mdns
open Lib List Option

variable {n k : Nat}

section calls
variable (fuel elapsed : Nat)

def ptrCalls (st : Querier n k × Message) (ptr : Resource) : List (Option Nat) :=
  some ptr.name :: match findServiceMonitor fuel st.1 (.packet st.2.data) (some ptr.name) with
    | some (some _) => [some ptr.rdata]
    | _ => []

def sinstCalls (m : Message) (q : Querier n k) (r : Resource) : List (Option Nat) :=
  match dnameLabelNext fuel (.packet m.data) r.name with
  | none => []
  | some fqst => fqst :: match findServiceMonitor fuel q (.packet m.data) fqst with
    | some (some _) => [some r.name]
    | _ => []

def aCalls (_ : Querier n k) (r : Resource) : List (Option Nat) := [some r.name]

/-- The positions that `update_service_cache` passes to `find_service_monitor`, `find_service_instance` and
`find_arec`, in order and as far as it comes. -/
def cacheCalls (q : Querier n k) (m : Message) : List (Option Nat) :=
  if m.qr then
    traceAll (ptrStep fuel elapsed) (ptrCalls fuel) m.ptrs (q, m) ++
      match runAll (ptrStep fuel elapsed) m.ptrs (q, m) with
      | none => []
      | some (q, m) => traceAll (txtStep fuel elapsed m) (sinstCalls fuel m) m.txts q ++
        match runAll (txtStep fuel elapsed m) m.txts q with
        | none => []
        | some q => traceAll (srvStep fuel elapsed m) (sinstCalls fuel m) m.srvs q ++
          match runAll (srvStep fuel elapsed m) m.srvs q with
          | none => []
          | some q => traceAll (aStep fuel m) aCalls m.as q
  else []

end calls

section next
variable {p : Mem} {e c off fuel : Nat}

def GoesOn (p : Mem) (off : Nat) : Prop := ∃ c, Lands (.packet p) off c ∧ byte p (c + byte p c + 1) ≠ 0

theorem dnameLabelNext_eq_some {x : Option Nat} (h : dnameLabelNext fuel (.packet p) off = some x) :
    ∃ c, Lands (.packet p) off c ∧ x = if byte p (c + byte p c + 1) = 0 then none else some (c + byte p c + 1) := by
  obtain ⟨c, hc, hx⟩ := bind_eq_some_iff.mp h
  refine ⟨c, ?_, (some.inj hx).symm⟩
  have hcomes := (stable_chase (.packet p) off).comes (n := fuel) (by rw [hc]; exact some_ne_none c)
  rw [hc] at hcomes
  exact hcomes

theorem overrun_le {b : Bool}
    (h : Comes (fun fuel => loop (overrunBody p e) fuel (b, off)) (some false)) : off ≤ e := by
  by_contra hlt
  have hbody : overrunBody p e (b, off) = .inr true := if_pos (Nat.lt_of_not_le hlt)
  cases (comes_loop_break hbody).mp h

theorem Ends.le (h : Ends p e off) : off ≤ e := overrun_le (ends_iff.mp h)

theorem overrun_next {b : Bool} (h : Comes (fun fuel => loop (overrunBody p e) fuel (b, off)) (some false))
    (hc : chase fuel (.packet p) off = some c) (hroot : b = true ∨ off ≠ c ∨ byte p c ≠ 0) : c + byte p c + 1 ≤ e := by
  induction fuel generalizing off b with
  | zero => cases hc
  | succ fuel ih =>
    have hle : ¬ off > e := Nat.not_lt_of_le (overrun_le h)
    rcases chase_cases hc with ⟨hptr, rfl⟩ | ⟨f, hf, hptr, -, hrest⟩
    · have hzero : ¬ (!b && decide (byte p c = 0)) = true := by
        rcases hroot with rfl | hne | hne
        · simp
        · exact absurd rfl hne
        · simp [hne]
      have hbody : overrunBody p e (b, c) = .inl (false, c + byte p c + 1) := by
        have hptr : ¬ isPointer (byte p c) = true := Bool.eq_false_iff.mp hptr
        simp only [overrunBody, if_neg hle, if_neg hzero, if_neg hptr]
      exact overrun_le ((comes_loop_continue hbody).mp h)
    · cases hf
      have hptr : isPointer (byte p off) = true := hptr
      have hzero : ¬ (!b && decide (byte p off = 0)) = true := by simp [ne_zero_of_isPointer hptr]
      have hbody : overrunBody p e (b, off) = .inl (true, pointer p off) := by
        simp only [overrunBody, if_neg hle, if_neg hzero, if_pos hptr]
      exact ih ((comes_loop_continue hbody).mp h) hrest (.inl rfl)

theorem ResourceAt.type_byte {a b : Nat} {r : Resource} (h : ResourceAt p a r b) (hroot : byte p a = 0)
    (htype : r.type < 256) :
    byte p (a + 1) = 0 := by
  obtain ⟨d, ⟨j, hj, hd⟩, rfl⟩ := h.fields
  have hstop : StopsAt (labelHop p) (OwnStop p) a 0 := ⟨.inl hroot, fun i hi => absurd hi (Nat.not_lt_zero i)⟩
  rw [hj.unique hstop] at hd
  have hd : d = a + 1 := by rw [hd, Function.iterate_zero, id, ownEnd, if_pos hroot]
  subst hd
  have htype : byte p (a + 1) * 256 + byte p (a + 1 + 1) < 256 := htype
  omega

end next

section left
variable {fuel elapsed : Nat} {q q' : Querier n k} {m m' : Message}
  {rs rest : List Resource} {i j : ServiceInstance n k} {ptr : Resource}

structure Message.LeftOf (m m' : Message) : Prop where
  data : m'.data = m.data
  as : m'.as = m.as
  srvs : m'.srvs ⊆ m.srvs
  txts : m'.txts ⊆ m.txts

theorem Message.LeftOf.refl (m : Message) : m.LeftOf m := ⟨rfl, rfl, fun _ h => h, fun _ h => h⟩

theorem Message.LeftOf.trans {m'' : Message} (h : m.LeftOf m') (h' : m'.LeftOf m'') : m.LeftOf m'' :=
  ⟨h'.data.trans h.data, h'.as.trans h.as, fun _ hr => h.srvs (h'.srvs hr), fun _ hr => h.txts (h'.txts hr)⟩

theorem overflow_left {c : Fin k} (h : overflow fuel q m c ptr = some (q', m')) : m.LeftOf m' := by
  rcases overflow_cases h with ⟨-, rfl⟩ | ⟨_, _, _, _, _, _, -, htxts, hsrvs, -, rfl⟩
  · exact .refl m'
  · exact ⟨rfl, rfl, hsrvs, (takeTxts_keeps (P := fun _ => True) (fun _ _ => trivial) htxts trivial).2⟩

theorem ptrStep_left (h : ptrStep fuel elapsed (q, m) ptr = some (q', m')) : m.LeftOf m' := by
  cases takesPtr_of_ptrStep h with
  | ignored => exact .refl m
  | goodbye => exact .refl m
  | renewed => exact .refl m
  | failed => exact .refl m
  | adopted => exact .refl m
  | unheard => exact .refl m
  | overflowed _ _ _ _ ho => exact overflow_left ho

end left

section response
variable {data : Mem} {mlen : Nat} {m : Message} {fuel e elapsed : Nat} {q : Querier n k}

/-- Every position that the response is looked up with, by any querier, is one of the packet. -/
def LooksUpInside (n k : Nat) (mlen : Nat) (m : Message) : Prop :=
  ∀ (q : Querier n k) (fuel elapsed : Nat), ∀ pos ∈ cacheCalls fuel elapsed q m, ∃ off < mlen, pos = some off

structure Checked (e : Nat) (m : Message) : Prop where
  ptrs : ∀ r ∈ m.ptrs, r.name ≤ e ∧ r.rdata ≤ e
  named : ∀ r ∈ m.txts ++ m.srvs, Ends m.data e r.name ∧ (byte m.data r.name = 0 → byte m.data (r.name + 1) = 0)
  as : ∀ r ∈ m.as, r.name ≤ e

theorem mdnsParseMessage_checked (h : mdnsParseMessage fuel data mlen = .ok m) :
    0 < mlen ∧ Checked (mlen - 1) m := by
  obtain ⟨hscan, hends⟩ := mdnsParseMessage_ok_iff.mp ⟨fuel, h⟩
  obtain ⟨hlen, hdata⟩ := scanPacket_data hscan
  obtain ⟨a, b, hs⟩ := scanPacket_stored hscan
  have hchecked : ∀ r ∈ m.records, ∀ off ∈ r.checked, Ends m.data (mlen - 1) off := by
    intro r hr off hoff
    rw [hdata]
    exact hends off ((scanPacket_covers hscan).2 r hr hoff)
  have hname : ∀ r ∈ m.records, Ends m.data (mlen - 1) r.name := fun r hr => hchecked r hr _ (mem_cons_self ..)
  have hroot : ∀ r ∈ m.records, r.type < 256 → byte m.data r.name = 0 → byte m.data (r.name + 1) = 0 := by
    refine (hs.answers.append hs.authorities).forall ?_
    intro a r b hr htype hzero
    rw [hdata, hr.1.start.1] at *
    exact hr.1.type_byte hzero htype
  have hsort : ∀ {t : Nat} {rs : List Resource}, rs.Perm (m.records.filter (·.type = t)) →
      ∀ r ∈ rs, r ∈ m.records ∧ r.type = t := by
    intro t rs hperm r hr
    obtain ⟨hmem, htype⟩ := mem_filter.mp (hperm.mem_iff.mp hr)
    exact ⟨hmem, of_decide_eq_true htype⟩
  obtain ⟨hlas, hlsrvs, hltxts, hlptrs⟩ := hs.sorted
  refine ⟨Nat.lt_of_lt_of_le (by decide) hlen, ?_, ?_, ?_⟩
  · intro r hr
    obtain ⟨hmem, htype⟩ := hsort hlptrs r hr
    refine ⟨(hname r hmem).le, (hchecked r hmem r.rdata ?_).le⟩
    rw [Resource.checked, if_pos (.inr htype)]
    exact mem_cons_of_mem _ (mem_singleton.mpr rfl)
  · intro r hr
    have hrec : r ∈ m.records ∧ r.type < 256 := by
      rcases mem_append.mp hr with hr | hr
      · obtain ⟨hmem, htype⟩ := hsort hltxts r hr
        exact ⟨hmem, by rw [htype]; decide⟩
      · obtain ⟨hmem, htype⟩ := hsort hlsrvs r hr
        exact ⟨hmem, by rw [htype]; decide⟩
    exact ⟨hname r hrec.1, hroot r hrec.1 hrec.2⟩
  · intro r hr
    exact (hname r (hsort hlas r hr).1).le

theorem sinstCalls_inside {r : Resource} (hends : Ends m.data e r.name)
    (hroot : byte m.data r.name = 0 → byte m.data (r.name + 1) = 0) (hgo : GoesOn m.data r.name) :
    ∀ pos ∈ sinstCalls fuel m q r, ∃ off ≤ e, pos = some off := by
  intro pos hpos
  unfold sinstCalls at hpos
  cases hx : dnameLabelNext fuel (.packet m.data) r.name with
  | none =>
    rw [hx] at hpos
    cases hpos
  | some fqst =>
    rw [hx] at hpos
    rcases mem_cons.mp hpos with rfl | hpos
    · obtain ⟨c, hc, rfl⟩ := dnameLabelNext_eq_some hx
      obtain ⟨c', hc', hnext⟩ := hgo
      obtain rfl := hc.unique hc'
      refine ⟨c + byte m.data c + 1, ?_, if_neg hnext⟩
      obtain ⟨f, hf⟩ := hc
      refine overrun_next (ends_iff.mp hends) (hf f (Nat.le_refl f)) (.inr ?_)
      by_contra hno
      push Not at hno
      obtain ⟨rfl, hzero⟩ := hno
      rw [hzero] at hnext
      exact hnext (hroot hzero)
    · split at hpos
      · exact ⟨r.name, hends.le, mem_singleton.mp hpos⟩
      · cases hpos

theorem cacheCalls_inside (hm : Checked e m)
    (hgo : m.qr = true → ∀ r ∈ m.txts ++ m.srvs, GoesOn m.data r.name) :
    ∀ pos ∈ cacheCalls fuel elapsed q m, ∃ off ≤ e, pos = some off := by
  unfold cacheCalls
  split
  case isFalse =>
    intro pos hpos
    cases hpos
  case isTrue hqr =>
    have hkeep : ∀ (st : Querier n k × Message) ptr st', ptrStep fuel elapsed st ptr = some st' →
        m.LeftOf st.2 → m.LeftOf st'.2 := fun st ptr st' h hleft => hleft.trans (ptrStep_left h)
    refine forall_mem_append.mpr ⟨forall_mem_traceAll hkeep ?_ (.refl m), ?_⟩
    · intro st ptr hptr _ pos hpos
      obtain ⟨hname, hrdata⟩ := hm.ptrs ptr hptr
      rcases mem_cons.mp hpos with rfl | hpos
      · exact ⟨ptr.name, hname, rfl⟩
      · split at hpos
        · exact ⟨ptr.rdata, hrdata, mem_singleton.mp hpos⟩
        · cases hpos
    · split
      case h_1 =>
        intro pos hpos
        cases hpos
      case h_2 q₁ m₁ hrun =>
        have hleft : m.LeftOf m₁ := runAll_keeps hkeep hrun (.refl m)
        have hcalls : ∀ r ∈ m₁.txts ++ m₁.srvs, ∀ q : Querier n k, ∀ pos ∈ sinstCalls fuel m₁ q r,
          ∃ off ≤ e, pos = some off := by
          intro r hr q
          have hr : r ∈ m.txts ++ m.srvs := 
            append_subset.mpr ⟨subset_append_of_subset_left _ hleft.txts, subset_append_of_subset_right _ hleft.srvs⟩ hr
          obtain ⟨hends, hroot⟩ := hm.named r hr
          apply sinstCalls_inside
          · rw [hleft.data]
            exact hends
          · rw [hleft.data]
            exact hroot
          · rw [hleft.data]
            exact hgo hqr r hr
        have hsame : ∀ (f : Querier n k → Resource → Option (Querier n k)) q r q', f q r = some q' → True → True :=
          fun _ _ _ _ _ h => h
        refine forall_mem_append.mpr ⟨forall_mem_traceAll (hsame _) ?_ trivial, ?_⟩
        · intro q r hr _
          exact hcalls r (mem_append_left _ hr) q
        · split
          case h_1 =>
            intro pos hpos
            cases hpos
          case h_2 =>
            refine forall_mem_append.mpr ⟨forall_mem_traceAll (hsame _) ?_ trivial, ?_⟩
            · intro q r hr _
              exact hcalls r (mem_append_right _ hr) q
            · split
              case h_1 =>
                intro pos hpos
                cases hpos
              case h_2 =>
                refine forall_mem_traceAll (hsame _) ?_ trivial
                intro q r hr _ pos hpos
                rw [hleft.as] at hr
                exact ⟨r.name, hm.as r hr, mem_singleton.mp hpos⟩

theorem mem_cacheCalls {r : Resource} {x : Option Nat} (hqr : m.qr = true)
    (hall : ∀ r ∈ m.txts ++ m.srvs, dnameLabelNext fuel (.packet m.data) r.name ≠ none) (hr : r ∈ m.txts ++ m.srvs)
    (hx : dnameLabelNext fuel (.packet m.data) r.name = some x) : x ∈ cacheCalls fuel elapsed (queryLaunch n k) m := by
  have hptr : ∀ ptr ∈ m.ptrs,
    ptrStep fuel elapsed (queryLaunch n k, m) ptr = some (queryLaunch n k, m) := fun _ _ => rfl
  have hsinst : ∀ r ∈ m.txts ++ m.srvs, sinstOf fuel (queryLaunch n k) m r = some none := by
    intro r hr
    obtain ⟨y, hy⟩ := ne_none_iff_exists'.mp (hall r hr)
    unfold sinstOf
    rw [hy]
    rfl
  have htxt : ∀ r ∈ m.txts, txtStep fuel elapsed m (queryLaunch n k) r = some (queryLaunch n k) := by
    intro r hr
    unfold txtStep
    rw [hsinst r (mem_append_left _ hr)]
    rfl
  have hsrv : ∀ r ∈ m.srvs, srvStep fuel elapsed m (queryLaunch n k) r = some (queryLaunch n k) := by
    intro r hr
    unfold srvStep
    rw [hsinst r (mem_append_right _ hr)]
    rfl
  have hcall : x ∈ sinstCalls fuel m (queryLaunch n k) r := by
    unfold sinstCalls
    rw [hx]
    exact mem_cons_self ..
  unfold cacheCalls
  rw [if_pos hqr, runAll_stays hptr]
  refine mem_append_right _ ?_
  dsimp only
  rw [runAll_stays htxt]
  rcases mem_append.mp hr with hr | hr
  · exact mem_append_left _ (mem_traceAll htxt hr hcall)
  · exact mem_append_right _ (mem_append_left _ (mem_traceAll hsrv hr hcall))

/-- The look-ups stay inside the packet exactly if no name of a TXT or SRV record ends behind its first label. -/
theorem looksUpInside_iff (h : mdnsParseMessage fuel data mlen = .ok m) :
    LooksUpInside n k mlen m ↔ (m.qr = true → ∀ r ∈ m.txts ++ m.srvs, GoesOn m.data r.name) := by
  obtain ⟨hlen, hm⟩ := mdnsParseMessage_checked h
  constructor
  · intro hin hqr
    have hlands : ∀ r ∈ m.txts ++ m.srvs, ∃ c, Lands (.packet m.data) r.name c := by
      intro r hr
      obtain ⟨ls, hls⟩ := (hm.named r hr).1.expands
      obtain ⟨c, hc, -⟩ := hls.lands
      exact ⟨c, hc⟩
    obtain ⟨f, hf⟩ := exists_fuel_forall (P := fun f (r : Resource) => dnameLabelNext f (.packet m.data) r.name ≠ none)
      (l := m.txts ++ m.srvs) (by
        intro r hr
        obtain ⟨c, f, hf⟩ := hlands r hr
        refine ⟨f, ?_⟩
        intro f' hle
        have hc : chase f' (.packet m.data) r.name = some c := hf f' hle
        unfold dnameLabelNext
        rw [hc]
        exact some_ne_none _)
    intro r hr
    obtain ⟨x, hx⟩ := ne_none_iff_exists'.mp (hf f (Nat.le_refl f) r hr)
    obtain ⟨off, -, rfl⟩ := hin (queryLaunch n k) f 0 x (mem_cacheCalls hqr (hf f (Nat.le_refl f)) hr hx)
    obtain ⟨c, hc, heq⟩ := dnameLabelNext_eq_some hx
    refine ⟨c, hc, ?_⟩
    intro hzero
    rw [if_pos hzero] at heq
    cases heq
  · intro hgo q fuel elapsed pos hpos
    obtain ⟨off, hle, rfl⟩ := cacheCalls_inside hm hgo pos hpos
    exact ⟨off, by omega, rfl⟩

def txtResponse (name : Mem) : Mem :=
  [0, 0, 0x84, 0, 0, 0, 0, 1, 0, 0, 0, 0] ++ name ++ [0, 16, 0, 1, 0, 0, 0, 120, 0, 1, 0]

def txtMessage (name : Mem) : Message :=
  let r : Resource := { name := 12, type := tTxt, cls := cIn, ttl := 120, rdlength := 1, rdata := 22 + name.length }
  { data := swapFlags (txtResponse name), mend := 22 + name.length, cur := 23 + name.length, numAnswers := 1,
    answers := [r], txts := [r] }

/-- A name of two labels goes on. -/
theorem looksUpInside_twoLabels : LooksUpInside 1 1 28 (txtMessage [1, 97, 1, 98, 0]) := by
  have h : mdnsParseMessage 4 (txtResponse [1, 97, 1, 98, 0]) 28 = .ok (txtMessage [1, 97, 1, 98, 0]) :=
    by decide +kernel
  refine (looksUpInside_iff h).mpr ?_
  intro _ r hr
  obtain rfl := mem_singleton.mp hr
  exact ⟨12, lands_self (by decide), by decide⟩

/-- `_ipp._tcp.local`. -/
def ippType : Mem := [4, 95, 105, 112, 112, 4, 95, 116, 99, 112, 5, 108, 111, 99, 97, 108, 0]

/-- With a monitor, the response for a name of one label is followed to NULL. -/
theorem updateServiceCache_oneLabel :
    mdnsParseMessage 4 (txtResponse [1, 97, 0]) 26 = .ok (txtMessage [1, 97, 0]) ∧
      ∃ q : Querier 1 1, step 1 (queryLaunch 1 1) (.monitor ippType) = some q ∧
        cacheCalls 4 0 q (txtMessage [1, 97, 0]) = [none] ∧
        ∀ fuel, updateServiceCache fuel 0 q (txtMessage [1, 97, 0]) = none := by
  refine ⟨by decide +kernel, _, rfl, by rfl, ?_⟩
  intro fuel
  cases fuel with
  | zero => rfl
  | succ fuel => rfl

end response

end Mdns
