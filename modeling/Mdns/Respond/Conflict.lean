import Mdns.Respond.State

/-!
# Conflicts

The comparison of the proposed records of two probes, and what the responder does when another
host has one of its names or wants it. A comparison of names that does not return is `none`.
-/
namespace Mdns
open Lib Option

section order

/-- The slots of `find_authorities`. -/
structure Slots where
  a : Option Resource := none
  cname : Option Resource := none
  ptr : Option Resource := none
  txt : Option Resource := none
  srv : Option Resource := none

def Slots.records (s : Slots) : List Resource := [s.a, s.cname, s.ptr, s.txt, s.srv].reduceOption

/-- One round of `find_authorities` for a record with the name: the slot of its type is set and `n`
counts it. -/
def Slots.add (slots : Slots × Nat) (r : Resource) : Slots × Nat :=
  match slots with
  | (s, n) =>
    if r.type = tA then ({ s with a := some r }, n + 1)
    else if r.type = tCname then ({ s with cname := some r }, n + 1)
    else if r.type = tPtr then ({ s with ptr := some r }, n + 1)
    else if r.type = tTxt then ({ s with txt := some r }, n + 1)
    else if r.type = tSrv then ({ s with srv := some r }, n + 1)
    else (s, n)

/-- `find_authorities`. -/
def findAuthorities (fuel : Nat) (m : Message) (name : Mem) : List Resource → Slots × Nat → Option (Slots × Nat)
  | [], slots => some slots
  | r :: rs, slots => do
    let c ← dnameCmp fuel (.packet m.data) r.name (.plain name) 0
    findAuthorities fuel m name rs (if c = 0 then Slots.add slots r else slots)

/-- The byte loop of `rr_cmp` for TXT and unknown records. Both of its tests are for a greater byte
on the left. -/
def txtCmp : List UInt8 → List UInt8 → Int
  | [], [] => 0
  | [], _ :: _ => -1
  | _ :: _, [] => 1
  | a :: as, b :: bs => if a > b then 1 else if a > b then -1 else txtCmp as bs

def srvFixed : Nat := 6

def rdataCmp (fuel : Nat) (ma : Message) (a : Resource) (mb : Message) (b : Resource) : Option Int :=
  if a.type = tA then some (cmpBytes (slice ma.data a.rdata 4) (slice mb.data b.rdata 4))
  else if a.type = tCname ∨ a.type = tPtr then dnameCmp fuel (.packet ma.data) a.rdata (.packet mb.data) b.rdata
  else if a.type = tSrv then
    if cmpBytes (slice ma.data a.rdata srvFixed) (slice mb.data b.rdata srvFixed) ≠ 0 then
      some (cmpBytes (slice ma.data a.rdata srvFixed) (slice mb.data b.rdata srvFixed))
    else dnameCmp fuel (.packet ma.data) (a.rdata + srvFixed) (.packet mb.data) (b.rdata + srvFixed)
  else some (txtCmp (slice ma.data a.rdata a.rdlength) (slice mb.data b.rdata b.rdlength))

/-- `rr_cmp`. The top bit of the class is masked. -/
def rrCmp (fuel : Nat) (ma : Message) (a : Resource) (mb : Message) (b : Resource) : Option Int :=
  if a.cls % 32768 > b.cls % 32768 then some 1
  else if a.cls % 32768 < b.cls % 32768 then some (-1)
  else if a.type > b.type then some 1
  else if a.type < b.type then some (-1)
  else rdataCmp fuel ma a mb b

/-- The loop of `authority_set_cmp` over the records that are there. -/
def recordsCmp (fuel : Nat) (p1 p2 : Message) : List Resource → List Resource → Option Int
  | [], [] => some 0
  | [], _ :: _ => some (-1)
  | _ :: _, [] => some 1
  | r1 :: rs1, r2 :: rs2 => do
    let ret ← rrCmp fuel p1 r1 p2 r2
    if ret ≠ 0 then return ret else recordsCmp fuel p1 p2 rs1 rs2

/-- `authority_set_cmp`. -/
def authoritySetCmp (fuel : Nat) (p1 p2 : Message) (name : Mem) : Option Int := do
  let (r1, n1) ← findAuthorities fuel p1 name p1.authorities ({}, 0)
  let (r2, n2) ← findAuthorities fuel p2 name p2.authorities ({}, 0)
  if n1 = 0 ∧ n2 = 0 then return 0
  else recordsCmp fuel p1 p2 r1.records r2.records

end order

section conflicts

def renameHost (r : Responder) (ret : Int) : Option (Responder × Int) := do
  let ret := if ret = 0 then 1 else ret
  let (fqdn, code) ← dnameIncrement r.fqdn
  return if code = -1 then ({ r with fqdn := resetFqdn r fqdn }, -1) else ({ r with fqdn }, ret)

/-- A service takes another name, and `ptrname` moves with the bytes that it points to. -/
def renameService (domname : CString) (s : Service) (ret : Int) : Option (Service × Int) := do
  let ret := if ret = 0 then 1 else ret
  let (fqsn, code) ← dnameIncrement s.fqsn
  let (s', ret) := if code = -1 then (resetFqsn domname { s with fqsn }, -1) else ({ s with fqsn }, ret)
  return ({ s' with ptrname := if nameSize s'.fqsn > nameSize s.fqsn then s'.ptrname + 2 else s'.ptrname }, ret)

/-- A question of a probe and a service whose flag says whether it has been checked. -/
def probeService (fuel : Nat) (m p : Message) (q : Question) (domname : CString) (s : Service)
    (checked : Bool) (ret : Int) :
    Option (Service × Bool × Int) :=
  if checked then some (s, checked, ret)
  else do
    let c ← dnameCmp fuel (.packet m.data) q.qname (.plain s.fqsn) 0
    if c = 0 then
      let cmp ← authoritySetCmp fuel m p s.fqsn
      if cmp = 1 then
        let (s, ret) ← renameService domname s ret
        return (s, true, ret)
      else return (s, true, ret)
    else return (s, checked, ret)

def probeServices (fuel : Nat) (m p : Message) (q : Question) (domname : CString) :
    List (Service × Bool) → Int → Option (List (Service × Bool) × Int)
  | [], ret => some ([], ret)
  | (s, checked) :: rest, ret => do
    let (s, checked, ret) ← probeService fuel m p q domname s checked ret
    let (rest, ret) ← probeServices fuel m p q domname rest ret
    return ((s, checked) :: rest, ret)

def probeHost (fuel : Nat) (m p : Message) (q : Question) (r : Responder) (ret : Int) : Option (Responder × Int) := do
  let c ← dnameCmp fuel (.packet m.data) q.qname (.plain r.fqdn) 0
  if c = 0 then
    let cmp ← authoritySetCmp fuel m p r.fqdn
    if cmp = 1 then renameHost r ret else return (r, ret)
  else return (r, ret)

/-- The loop over the questions of a probe. PTR questions are passed over. -/
def probeConflicts (fuel : Nat) (m p : Message) :
    List Question → Responder → List (Service × Bool) → Int → Option (Responder × List (Service × Bool) × Int)
  | [], r, services, ret => some (r, services, ret)
  | q :: qs, r, services, ret =>
    if q.qtype = tPtr then probeConflicts fuel m p qs r services ret
    else do
      let (r, ret) ← probeHost fuel m p q r ret
      let (services, ret) ← probeServices fuel m p q r.domname services ret
      probeConflicts fuel m p qs r services ret

def answerConflictServices (fuel : Nat) (m : Message) (a : Resource) (domname : CString) :
    List Service → Int → Option (List Service × Int)
  | [], ret => some ([], ret)
  | s :: rest, ret => do
    let c ← dnameCmp fuel (.packet m.data) a.name (.plain s.fqsn) 0
    let (s, ret) ← if c = 0 then renameService domname s ret else some (s, ret)
    let (rest, ret) ← answerConflictServices fuel m a domname rest ret
    return (s :: rest, ret)

/-- A record of a response and the host name: `r->type == T_A` is looked at first. -/
def answerConflictHost (fuel : Nat) (m : Message) (a : Resource) (r : Responder) (ret : Int) :
    Option (Responder × Int) :=
  if a.type = tA then do
    let c ← dnameCmp fuel (.packet m.data) a.name (.plain r.fqdn) 0
    if c = 0 then renameHost r ret else return (r, ret)
  else some (r, ret)

def answerConflicts (fuel : Nat) (m : Message) : List Resource → Responder → Int → Option (Responder × Int)
  | [], r, ret => some (r, ret)
  | a :: as, r, ret => do
    let (r, ret) ← answerConflictHost fuel m a r ret
    if a.type = tSrv then
      let (services, ret) ← answerConflictServices fuel m a r.domname r.services ret
      answerConflicts fuel m as { r with services } ret
    else answerConflicts fuel m as r ret

/-- `fix_response_conflicts` of the message `m` with our probe `p`. -/
def fixResponseConflicts (fuel : Nat) (r : Responder) (m p : Message) : Option (Responder × Int) :=
  if !m.qr && decide (m.numAuthorities > 0) then do
    let (r, services, ret) ← probeConflicts fuel m p m.questions r (r.services.map (·, false)) 0
    return ({ r with services := services.map Prod.fst }, ret)
  else answerConflicts fuel m m.answers r 0

end conflicts

section frame
variable {fuel : Nat} {m p : Message} {r r' r'' : Responder} {ret ret' : Int}

def Renamed (r r' : Responder) : Prop := ∃ fqdn services, r' = { r with fqdn, services }

theorem Renamed.refl (r : Responder) : Renamed r r := ⟨r.fqdn, r.services, rfl⟩

theorem Renamed.trans (h : Renamed r r') (h' : Renamed r' r'') : Renamed r r'' := by
  obtain ⟨f, s, rfl⟩ := h
  obtain ⟨f', s', rfl⟩ := h'
  exact ⟨f', s', rfl⟩

theorem renameHost_renamed (h : renameHost r ret = some (r', ret')) : Renamed r r' := by
  obtain ⟨⟨fqdn, code⟩, -, h⟩ := bind_eq_some_iff.mp h
  simp only [pure, some.injEq] at h
  split at h <;> cases h <;> exact ⟨_, r.services, rfl⟩

theorem probeHost_renamed {q : Question} (h : probeHost fuel m p q r ret = some (r', ret')) : Renamed r r' := by
  obtain ⟨c, -, h⟩ := bind_eq_some_iff.mp h
  split at h
  · obtain ⟨cmp, -, h⟩ := bind_eq_some_iff.mp h
    split at h
    · exact renameHost_renamed h
    · cases h
      exact .refl r
  · cases h
    exact .refl r

theorem probeConflicts_renamed {qs : List Question} {services services' : List (Service × Bool)}
    (h : probeConflicts fuel m p qs r services ret = some (r', services', ret')) : Renamed r r' := by
  induction qs generalizing r services ret with
  | nil =>
    cases h
    exact .refl _
  | cons q qs ih =>
    unfold probeConflicts at h
    split at h
    · exact ih h
    · obtain ⟨⟨r1, ret1⟩, hhost, h⟩ := bind_eq_some_iff.mp h
      obtain ⟨⟨services1, ret2⟩, -, h⟩ := bind_eq_some_iff.mp h
      exact (probeHost_renamed hhost).trans (ih h)

theorem answerConflictHost_renamed {a : Resource} (h : answerConflictHost fuel m a r ret = some (r', ret')) :
    Renamed r r' := by
  unfold answerConflictHost at h
  split at h
  · obtain ⟨c, -, h⟩ := bind_eq_some_iff.mp h
    split at h
    · exact renameHost_renamed h
    · cases h
      exact .refl r
  · cases h
    exact .refl r

theorem answerConflicts_renamed {as : List Resource} (h : answerConflicts fuel m as r ret = some (r', ret')) :
    Renamed r r' := by
  induction as generalizing r ret with
  | nil =>
    cases h
    exact .refl _
  | cons a as ih =>
    obtain ⟨⟨r1, ret1⟩, hhost, h⟩ := bind_eq_some_iff.mp h
    have h1 := answerConflictHost_renamed hhost
    dsimp only at h
    split at h
    · obtain ⟨⟨services, ret2⟩, -, h⟩ := bind_eq_some_iff.mp h
      exact h1.trans (.trans ⟨r1.fqdn, services, rfl⟩ (ih h))
    · exact h1.trans (ih h)

theorem fixResponseConflicts_renamed (h : fixResponseConflicts fuel r m p = some (r', ret)) : Renamed r r' := by
  unfold fixResponseConflicts at h
  split at h
  · obtain ⟨⟨r1, services, ret1⟩, hprobe, h⟩ := bind_eq_some_iff.mp h
    cases h
    exact (probeConflicts_renamed hprobe).trans ⟨r1.fqdn, _, rfl⟩
  · exact answerConflicts_renamed h

end frame

end Mdns
