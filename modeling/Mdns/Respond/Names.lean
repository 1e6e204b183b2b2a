import Mdns.Dname.Compare
import Mdns.Dname.Encode
import Mdns.Dname.Rename
import Mdns.Lib.Index
import Mdns.Respond.Conflict

/-!
# The names of a responder

`fix_response_conflicts` is a series of renamings. Each of them moves a name one step on along its
chain, or back to the configured name after the last step.
-/
namespace Mdns
open Lib List Option

section chain
variable {cfg l l' : List UInt8} {rest : Labels} {buf : Mem} {k : Nat}

theorem nextLabel_labelAfter (hk : k < triesLeft l) : nextLabel (labelAfter k l) = some (labelAfter (k + 1) l) := by
  induction k generalizing l with
  | zero =>
    cases hn : nextLabel l with
    | none =>
      rw [nextLabel_eq_none.mp hn] at hk
      cases hk
    | some l' => simp only [labelAfter, hn]
  | succ k ih =>
    cases hn : nextLabel l with
    | none =>
      rw [nextLabel_eq_none.mp hn] at hk
      cases hk
    | some l' =>
      have htries := triesLeft_next hn
      have hrest := ih (l := l') (by omega)
      rw [labelAfter, hn]
      show nextLabel (labelAfter k l') = some (labelAfter (k + 1 + 1) l)
      rw [hrest, labelAfter.eq_2 l (k + 1), hn]

theorem nextLabel_digit {d : UInt8} (hd : lastDigit l = some d) (hn : nextLabel l = some l') :
    l'.length = l.length := by
  unfold nextLabel at hn
  rw [hd] at hn
  have hpos : 2 ≤ l.length := by
    obtain ⟨⟨stem, rfl⟩, -⟩ := lastDigit_eq_some hd
    simp
  simp only at hn
  split at hn
  · cases hn
  · cases hn
    simp only [length_append, length_dropLast, length_singleton]
    omega

theorem lastDigit_of_next (hn : nextLabel l = some l') : ∃ d, lastDigit l' = some d := by
  rcases lastDigit_next hn with ⟨-, h⟩ | ⟨d, -, -, h⟩
  · exact ⟨_, h⟩
  · exact ⟨_, h⟩

theorem length_labelAfter_digit {d : UInt8} (hd : lastDigit l = some d) (k : Nat) :
    (labelAfter k l).length = l.length := by
  induction k generalizing l d with
  | zero => rfl
  | succ k ih =>
    cases hn : nextLabel l with
    | none => simp only [labelAfter, hn]
    | some l' =>
      obtain ⟨d', hd'⟩ := lastDigit_of_next hn
      simp only [labelAfter, hn]
      rw [ih hd', nextLabel_digit hd hn]

def growth (l : List UInt8) : Nat := if lastDigit l = none ∧ l.length ≤ 61 then 2 else 0

theorem length_nextLabel (hl : l.length < 64) (hr : lastDigit l ≠ none ∨ l.length ≠ 62) (hn : nextLabel l = some l') :
    l'.length = l.length + growth l := by
  cases hd : lastDigit l with
  | some d =>
    rw [nextLabel_digit hd hn, growth, if_neg (by simp [hd]), Nat.add_zero]
  | none =>
    have hne : l.length ≠ 62 := hr.resolve_left (fun h => h hd)
    have hmax : maxLabelLen = 63 := rfl
    simp only [nextLabel, hd, some.injEq] at hn
    by_cases hshort : l.length ≤ 61
    · rw [if_pos (by omega)] at hn
      rw [growth, if_pos ⟨hd, hshort⟩, ← hn, length_append]
      rfl
    · rw [if_neg (by omega)] at hn
      rw [growth, if_neg (fun h => hshort h.2), ← hn, length_append, length_take, length_cons, length_singleton]
      omega

theorem length_labelAfter (hl : l.length < 64) (hr : lastDigit l ≠ none ∨ l.length ≠ 62) (k : Nat) :
    (labelAfter k l).length = l.length + if k = 0 then 0 else growth l := by
  cases k with
  | zero => simp [labelAfter]
  | succ k =>
    cases hn : nextLabel l with
    | none =>
      have hd : lastDigit l ≠ none := by
        intro hd
        simp [nextLabel, hd] at hn
      simp only [labelAfter, hn, growth, hd, false_and, if_false, ite_self]
      rfl
    | some l' =>
      obtain ⟨d', hd'⟩ := lastDigit_of_next hn
      simp only [labelAfter, hn, length_labelAfter_digit hd', length_nextLabel hl hr hn]
      rfl

theorem lastDigit_labelAfter (hk : k ≤ triesLeft l) (h0 : k ≠ 0) : ∃ d, lastDigit (labelAfter k l) = some d := by
  obtain ⟨j, rfl⟩ := Nat.exists_eq_succ_of_ne_zero h0
  exact lastDigit_of_next (nextLabel_labelAfter (by omega))

/-- The buffer has a name whose first label is `k` steps along the chain of the configured one. -/
structure OnChain (cfg : List UInt8) (rest : Labels) (buf : Mem) (k : Nat) : Prop where
  le : k ≤ triesLeft cfg
  label : 0 < (labelAfter k cfg).length ∧ (labelAfter k cfg).length < 64
  name : At buf 0 (encodeName (labelAfter k cfg :: rest))

/-- Labels that a configured name may have: the first has room for a suffix, and none has a zero
byte. -/
structure Configurable (cfg : List UInt8) (rest : Labels) : Prop where
  first : 0 < cfg.length ∧ cfg.length ≤ 61
  others : ∀ l ∈ rest, 0 < l.length ∧ l.length < 64
  nonzero : ∀ l ∈ cfg :: rest, (0 : UInt8) ∉ l

/-- Labels of a name on which `dname_increment` is right. -/
structure Nameable (cfg : List UInt8) (rest : Labels) : Prop where
  first : 0 < cfg.length ∧ cfg.length < 64
  others : ∀ l ∈ rest, 0 < l.length ∧ l.length < 64
  renamable : Renamable cfg rest

theorem Configurable.nameable (hc : Configurable cfg rest) : Nameable cfg rest where
  first := by
    have h := hc.first
    omega
  others := hc.others
  renamable := .inr (.inr ⟨hc.first.2, hc.nonzero⟩)

theorem Nameable.short (hc : Nameable cfg rest) : lastDigit cfg ≠ none ∨ cfg.length ≠ 62 := by
  rcases hc.renamable with hd | hfull | hshort
  · exact .inl hd
  · exact .inr (by omega)
  · exact .inr (by omega)

theorem OnChain.wellFormed (h : OnChain cfg rest buf k) (hc : Nameable cfg rest) :
    ∀ l ∈ labelAfter k cfg :: rest, 0 < l.length ∧ l.length < 64 := by
  intro l hl
  rcases mem_cons.mp hl with rfl | hl
  · exact h.label
  · exact hc.others l hl

theorem Nameable.length_labelAfter (hc : Nameable cfg rest) (k : Nat) :
    (labelAfter k cfg).length = cfg.length + if k = 0 then 0 else growth cfg :=
  Mdns.length_labelAfter hc.first.2 hc.short k

theorem Nameable.label (hc : Nameable cfg rest) (k : Nat) :
    0 < (labelAfter k cfg).length ∧ (labelAfter k cfg).length < 64 := by
  have h := hc.first
  rw [hc.length_labelAfter]
  unfold growth
  split_ifs <;> omega

theorem onChain_zero (hc : Nameable cfg rest) (h : At buf 0 (encodeName (cfg :: rest))) : OnChain cfg rest buf 0 :=
  ⟨Nat.zero_le _, hc.label 0, h⟩

theorem OnChain.increment (hc : Nameable cfg rest) (hroom : (encodeName (cfg :: rest)).length + 2 ≤ buf.length)
    (h : OnChain cfg rest buf k) :
    (k = triesLeft cfg ∧ dnameIncrement buf = some (buf, -1)) ∨
      ∃ buf', dnameIncrement buf = some (buf', 0) ∧ buf'.length = buf.length ∧ OnChain cfg rest buf' (k + 1) := by
  have hinc : Increments buf (labelAfter k cfg) rest := by
    by_cases h0 : k = 0
    · subst h0
      exact hc.renamable.increments h.label hc.others h.name hroom
    · obtain ⟨d, hd⟩ := lastDigit_labelAfter h.le h0
      exact increments_digit h.label.1 h.label.2 hd h.name
  unfold Increments at hinc
  by_cases hlast : k = triesLeft cfg
  · have hnone : nextLabel (labelAfter k cfg) = none := by
      rw [nextLabel_eq_none, triesLeft_labelAfter h.le]
      omega
    rw [hnone] at hinc
    exact .inl ⟨hlast, hinc⟩
  · have hlt : k < triesLeft cfg := Nat.lt_of_le_of_ne h.le hlast
    rw [nextLabel_labelAfter hlt] at hinc
    obtain ⟨buf', heq, hlen, hat⟩ := hinc
    exact .inr ⟨buf', heq, hlen, hlt, hc.label _, hat⟩

def firstLabel (buf : Mem) : List UInt8 := slice buf 1 (byte buf 0)

theorem OnChain.byte (h : OnChain cfg rest buf k) : byte buf 0 = (labelAfter k cfg).length := by
  have hname := h.name
  rw [encodeName_cons] at hname
  rw [hname.take.byte, toNat_ofNat_lt (by have := h.label; omega)]

theorem OnChain.firstLabel (h : OnChain cfg rest buf k) : firstLabel buf = labelAfter k cfg := by
  have hname := h.name
  rw [encodeName_cons] at hname
  have htext : At buf 1 (labelAfter k cfg) := by
    have hput := hname.take
    rw [dnamePutLabel, show UInt8.ofNat (labelAfter k cfg).length :: labelAfter k cfg =
      [UInt8.ofNat (labelAfter k cfg).length] ++ labelAfter k cfg from rfl] at hput
    exact hput.drop
  rw [Mdns.firstLabel, h.byte, htext.slice]

theorem OnChain.nameSize (hc : Nameable cfg rest) (h : OnChain cfg rest buf k) (hlen : buf.length < 65536) :
    nameSize buf = (labelAfter k cfg).length + 1 + (encodeName rest).length := by
  have hle := h.name.length_le
  rw [nameSize_encodeName (h.wellFormed hc) h.name (by omega), encodeName_cons, length_append]
  rfl

end chain

section invariant
variable {r0 r r' : Responder} {s0 s s' : Service} {domname : CString} {ret ret' : Int} {k : Nat}

/-- The name of a service is on its chain and `ptrname` points to its second label. Nothing else
about the service has changed. -/
structure ServiceNaming (domname : CString) (s0 s : Service) (k : Nat) : Prop where
  config : s = { s0 with fqsn := s.fqsn, ptrname := s.ptrname }
  room : s.fqsn.length = s0.fqsn.length
  fqsn : OnChain s0.servname.1 (s0.suffix domname) s.fqsn k
  ptrname : s.ptrname = 1 + byte s.fqsn 0

/-- All names of the responder are on the chains of the configured ones. -/
structure Naming (r0 r : Responder) : Prop where
  config : r = { r0 with fqdn := r.fqdn, services := r.services }
  room : r.fqdn.length = r0.fqdn.length
  fqdn : ∃ k, OnChain r0.hname.1 [r0.domname.1] r.fqdn k
  services : Forall₂ (fun s0 s => ∃ k, ServiceNaming r0.domname s0 s k) r0.services r.services

/-- A service of the configurations in question, in its buffer of `MDNS_MAX_NAME_LEN` bytes. -/
structure Service.Configured (s : Service) : Prop where
  servname : 0 < s.servname.1.length ∧ s.servname.1.length ≤ 61
  servtype : 0 < s.servtype.1.length ∧ s.servtype.1.length ≤ 62
  buffer : s.fqsn.length = maxNameLen

structure Responder.Configured (r : Responder) : Prop where
  hname : 0 < r.hname.1.length ∧ r.hname.1.length ≤ 61
  domname : 0 < r.domname.1.length ∧ r.domname.1.length ≤ 63
  buffer : r.fqdn.length = maxNameLen + 1
  services : ∀ s ∈ r.services, s.Configured

theorem Responder.Configured.configurable (h : r.Configured) : Configurable r.hname.1 [r.domname.1] where
  first := h.hname
  others := by
    intro l hl
    obtain rfl := mem_singleton.mp hl
    have := h.domname
    omega
  nonzero := by
    intro l hl
    rcases mem_cons.mp hl with rfl | hl
    · exact r.hname.2
    · obtain rfl := mem_singleton.mp hl
      exact r.domname.2

theorem mem_suffix {l : List UInt8} :
    l ∈ s.suffix domname ↔ l = underscore :: s.servtype.1 ∨ l = protoLabel s.proto ∨ l = domname.1 := by
  simp [Service.suffix]

theorem Service.Configured.configurable (h : s.Configured) (hd : 0 < domname.1.length ∧ domname.1.length ≤ 63) :
    Configurable s.servname.1 (s.suffix domname) where
  first := h.servname
  others := by
    intro l hl
    rcases mem_suffix.mp hl with rfl | rfl | rfl
    · have := h.servtype
      simp only [length_cons]
      omega
    · cases s.proto <;> decide
    · omega
  nonzero := by
    intro l hl
    rcases mem_cons.mp hl with rfl | hl
    · exact s.servname.2
    · rcases mem_suffix.mp hl with rfl | rfl | rfl
      · intro h0
        rcases mem_cons.mp h0 with h0 | h0
        · exact absurd h0 (by decide)
        · exact s.servtype.2 h0
      · cases s.proto <;> decide
      · exact domname.2

/-- A service whose name can be renamed, in its buffer of `MDNS_MAX_NAME_LEN` bytes. -/
structure Service.Renamable (domname : CString) (s : Service) : Prop where
  name : Nameable s.servname.1 (s.suffix domname)
  buffer : s.fqsn.length = maxNameLen

structure Responder.Renamable (r : Responder) : Prop where
  name : Nameable r.hname.1 [r.domname.1]
  buffer : r.fqdn.length = maxNameLen + 1
  services : ∀ s ∈ r.services, s.Renamable r.domname

theorem Responder.Configured.renamable (h : r.Configured) : r.Renamable where
  name := h.configurable.nameable
  buffer := h.buffer
  services := fun s hs => ⟨((h.services s hs).configurable h.domname).nameable, (h.services s hs).buffer⟩

theorem Responder.Renamable.room (h : r.Renamable) :
    (encodeName [r.hname.1, r.domname.1]).length + 2 ≤ r.fqdn.length := by
  have h1 := h.name.first
  have h2 := h.name.others r.domname.1 (.head _)
  rw [h.buffer, length_encodeName_cons, length_encodeName_cons, length_encodeName_nil, maxNameLen]
  omega

theorem length_protoLabel (p : Proto) : (protoLabel p).length = 4 := by
  cases p <;> rfl

theorem length_serviceName (domname : CString) (s : Service) (l : List UInt8) :
    (encodeName (l :: s.suffix domname)).length = l.length + s.servtype.1.length + domname.1.length + 10 := by
  rw [Service.suffix, length_encodeName_cons, length_encodeName_cons, length_encodeName_cons, length_encodeName_cons,
    length_encodeName_nil, length_protoLabel, length_cons]
  omega

theorem Service.Renamable.room (h : s.Renamable domname) :
    (encodeName (s.servname.1 :: s.suffix domname)).length + 2 ≤ s.fqsn.length := by
  have h1 := h.name.first
  have h2 := h.name.others (underscore :: s.servtype.1) (mem_suffix.mpr (.inl rfl))
  have h3 := h.name.others domname.1 (mem_suffix.mpr (.inr (.inr rfl)))
  rw [length_cons] at h2
  rw [h.buffer, length_serviceName, maxNameLen]
  omega

def Responder.named (r : Responder) : Responder :=
  { r with fqdn := resetFqdn r r.fqdn, services := r.services.map (resetFqsn r.domname) }

theorem at_reset {bs : Mem} (buf : Mem) : At (writeAt buf 0 bs) 0 bs := at_writeAt_self (Nat.zero_le _) bs

theorem serviceNaming_reset (h : s0.Renamable domname)
    (hs : s = { s0 with fqsn := s.fqsn, ptrname := s.ptrname }) (hroom : s.fqsn.length = s0.fqsn.length) :
    ServiceNaming domname s0 (resetFqsn domname s) 0 := by
  have hlen := h.room
  have hcfg : s.servname = s0.servname ∧ s.suffix domname = s0.suffix domname := by
    rw [hs]
    exact ⟨rfl, rfl⟩
  have hchain : OnChain s0.servname.1 (s0.suffix domname) (resetFqsn domname s).fqsn 0 := by
    refine onChain_zero h.name ?_
    rw [resetFqsn, hcfg.1, hcfg.2]
    exact at_reset s.fqsn
  refine ⟨?_, ?_, hchain, ?_⟩
  · rw [resetFqsn, hs]
  · rw [resetFqsn, hcfg.1, hcfg.2]
    show (writeAt s.fqsn 0 _).length = _
    rw [length_writeAt (by omega), hroom]
  · rw [hchain.byte, Nat.add_comm, ← hcfg.1]
    rfl

theorem naming_named (h : r.Renamable) : Naming r r.named where
  config := rfl
  room := by
    have hlen := h.room
    show (writeAt r.fqdn 0 _).length = _
    rw [length_writeAt (by omega)]
  fqdn := ⟨0, onChain_zero h.name (at_reset r.fqdn)⟩
  services := by
    show Forall₂ _ r.services (r.services.map _)
    rw [forall₂_map_right_iff, forall₂_same]
    exact fun s hs => ⟨0, serviceNaming_reset (h.services s hs) rfl rfl⟩

def renamedRet (ret : Int) (reset : Bool) : Int := if reset then -1 else if ret = 0 then 1 else ret

def StepsOn (buf buf' : Mem) (reset : Bool) : Prop :=
  if reset then ∃ b, dnameIncrement buf = some (b, -1)
  else (∀ b, dnameIncrement buf ≠ some (b, -1)) ∧ triesLeft (firstLabel buf') + 1 = triesLeft (firstLabel buf)

theorem OnChain.stepsOn {cfg : List UInt8} {rest : Labels} {buf buf' : Mem} (h : OnChain cfg rest buf k)
    (h' : OnChain cfg rest buf' (k + 1)) (hinc : dnameIncrement buf = some (buf', 0)) : StepsOn buf buf' false := by
  refine ⟨fun b hb => ?_, ?_⟩
  · rw [hinc] at hb
    simp at hb
  · have hle := h'.le
    rw [h.firstLabel, h'.firstLabel, triesLeft_labelAfter h.le, triesLeft_labelAfter hle]
    omega

theorem Naming.renameHost (hc : r0.Renamable) (h : Naming r0 r) (ret : Int) :
    ∃ fqdn reset, Mdns.renameHost r ret = some ({ r with fqdn }, renamedRet ret reset) ∧
      Naming r0 { r with fqdn } ∧ StepsOn r.fqdn fqdn reset := by
  obtain ⟨k, hk⟩ := h.fqdn
  have hroom : (encodeName [r0.hname.1, r0.domname.1]).length + 2 ≤ r.fqdn.length := h.room ▸ hc.room
  have hcfg : r.hname = r0.hname ∧ r.domname = r0.domname := by
    rw [h.config]
    exact ⟨rfl, rfl⟩
  have hframe : ∀ fqdn : Mem, { r with fqdn } = { r0 with fqdn, services := r.services } := by
    intro fqdn
    rw [h.config]
  rcases hk.increment hc.name hroom with ⟨-, hlast⟩ | ⟨buf', hnext, hlen, hk'⟩
  · refine ⟨resetFqdn r r.fqdn, true, ?_, ⟨hframe _, ?_, ⟨0, onChain_zero hc.name ?_⟩, h.services⟩, r.fqdn, hlast⟩
    · simp [Mdns.renameHost, hlast, renamedRet]
    · show (writeAt r.fqdn 0 _).length = _
      rw [hcfg.1, hcfg.2, length_writeAt (by omega), h.room]
    · show At (resetFqdn r r.fqdn) 0 _
      rw [resetFqdn, hcfg.1, hcfg.2]
      exact at_reset r.fqdn
  · refine ⟨buf', false, ?_, ⟨hframe _, hlen.trans h.room, ⟨k + 1, hk'⟩, h.services⟩, hk.stepsOn hk' hnext⟩
    simp [Mdns.renameHost, hnext, renamedRet]

theorem ServiceNaming.renameService (hc : s0.Renamable domname)
    (h : ServiceNaming domname s0 s k) (ret : Int) :
    ∃ s' reset k', Mdns.renameService domname s ret = some (s', renamedRet ret reset) ∧
      ServiceNaming domname s0 s' k' ∧ StepsOn s.fqsn s'.fqsn reset := by
  have hcfg := hc.name
  have hroom : (encodeName (s0.servname.1 :: s0.suffix domname)).length + 2 ≤ s.fqsn.length := h.room ▸ hc.room
  have hbuf : s.fqsn.length < 65536 := by
    rw [h.room, hc.buffer]
    decide
  have hsize := h.fqsn.nameSize hcfg hbuf
  have hlabel := hcfg.length_labelAfter k
  rcases h.fqsn.increment hcfg hroom with ⟨-, hlast⟩ | ⟨buf', hnext, hlen, hk'⟩
  · have hreset := serviceNaming_reset hc h.config h.room
    have hsize' := hreset.fqsn.nameSize hcfg (by rw [hreset.room, hc.buffer]; decide)
    refine ⟨resetFqsn domname s, true, 0, ?_, hreset, s.fqsn, hlast⟩
    have hnot : ¬ nameSize (resetFqsn domname s).fqsn > nameSize s.fqsn := by
      rw [hsize, hsize', hlabel]
      simp only [labelAfter]
      omega
    simp [Mdns.renameService, hlast, renamedRet, hnot]
  · have hsize' := hk'.nameSize hcfg (by rw [hlen]; exact hbuf)
    have hlabel' := hcfg.length_labelAfter (k + 1)
    refine ⟨{ s with fqsn := buf'
                     ptrname := if nameSize buf' > nameSize s.fqsn then s.ptrname + 2 else s.ptrname }, false,
      k + 1, ?_, ⟨?_, hlen.trans h.room, hk', ?_⟩, h.fqsn.stepsOn hk' hnext⟩
    · simp [Mdns.renameService, hnext, renamedRet]
    · rw [h.config]
    · show (if nameSize buf' > nameSize s.fqsn then s.ptrname + 2 else s.ptrname) = 1 + byte buf' 0
      rw [hk'.byte, hsize', hsize, h.ptrname, h.fqsn.byte, hlabel, hlabel']
      have hgrow : growth s0.servname.1 = 0 ∨ growth s0.servname.1 = 2 := by
        unfold growth
        split
        · exact .inr rfl
        · exact .inl rfl
      rw [if_neg (Nat.succ_ne_zero k)]
      split_ifs <;> omega

end invariant

inductive Rename where
  | host
  | service (i : Nat)
  deriving DecidableEq, Repr

def Rename.run : Rename → Responder × Int → Option (Responder × Int)
  | .host, (r, ret) => renameHost r ret
  | .service i, (r, ret) => do
    let s ← r.services[i]?
    let (s, ret) ← renameService r.domname s ret
    return ({ r with services := r.services.set i s }, ret)

def Rename.name : Rename → Responder → Option Mem
  | .host, r => some r.fqdn
  | .service i, r => (r.services[i]?).map (·.fqsn)

def Rename.Resets (c : Rename) (r : Responder) : Prop :=
  ∃ name b, c.name r = some name ∧ dnameIncrement name = some (b, -1)

def renameAll (cs : List Rename) (x : Responder × Int) : Option (Responder × Int) := cs.foldlM (fun x c => c.run x) x

def AnyResets : List Rename → Responder × Int → Prop
  | [], _ => False
  | c :: cs, x => c.Resets x.1 ∨ ∃ y, c.run x = some y ∧ AnyResets cs y

def Bears (m : Message) (off : Nat) (name : Mem) : Prop :=
  ∃ ls, Expands (.packet m.data) off ls ∧ Expands (.plain name) 0 ls

def Lists (m : Message) (type : Nat) (name : Mem) : Prop := ∃ a ∈ m.answers, a.type = type ∧ Bears m a.name name

def Wins (m p : Message) (name : Mem) : Prop :=
  (∃ q ∈ m.questions, q.qtype ≠ tPtr ∧ Bears m q.qname name) ∧ ∃ fuel, authoritySetCmp fuel m p name = some 1

/-- What the code gives up a name for. A message that is no probe counts as a response. -/
def Contests (m p : Message) (type : Nat) (name : Mem) : Prop :=
  if m.qr = false ∧ 0 < m.numAuthorities then Wins m p name else Lists m type name

def Rename.type : Rename → Nat
  | .host => tA
  | .service _ => tSrv

/-- A series of renamings, each of a name that there are grounds to give up. -/
inductive GivesUp (grounds : Nat → Mem → Prop) : List Rename → Responder × Int → Responder × Int → Prop
  | nil (x : Responder × Int) : GivesUp grounds [] x x
  | cons {c : Rename} {cs : List Rename} {x y z : Responder × Int} {name : Mem} (hname : c.name x.1 = some name)
      (hgrounds : grounds c.type name) (hrun : c.run x = some y) (hrest : GivesUp grounds cs y z) :
        GivesUp grounds (c :: cs) x z

section calls
variable {fuel off : Nat} {m p : Message} {r0 r r' : Responder} {ret ret' : Int} {c : Rename} {cs cs' : List Rename}
  {x y z : Responder × Int} {g g' : Nat → Mem → Prop} {name : Mem} {ss ss' : List Service}

theorem bears_of_cmp (h : dnameCmp fuel (.packet m.data) off (.plain name) 0 = some 0) : Bears m off name := by
  have hcomes := (stable_dnameCmp (.packet m.data) off (.plain name) 0).comes (n := fuel) (by rw [h]; simp)
  rw [h] at hcomes
  exact (dnameCmp_iff.mp hcomes).expands

theorem renameAll_cons : renameAll (c :: cs) x = c.run x >>= renameAll cs := rfl

theorem GivesUp.renameAll (h : GivesUp g cs x y) : renameAll cs x = some y := by
  induction h with
  | nil x => rfl
  | cons hname hgrounds hrun hrest ih =>
    rw [renameAll_cons, hrun]
    exact ih

theorem GivesUp.append (h : GivesUp g cs x y) (h' : GivesUp g cs' y z) : GivesUp g (cs ++ cs') x z := by
  induction h with
  | nil x => exact h'
  | cons hname hgrounds hrun hrest ih => exact .cons hname hgrounds hrun (ih h')

theorem GivesUp.mono (h : GivesUp g cs x y) (hg : ∀ type name, g type name → g' type name) : GivesUp g' cs x y := by
  induction h with
  | nil x => exact .nil x
  | cons hname hgrounds hrun hrest ih => exact .cons hname (hg _ _ hgrounds) hrun ih

theorem GivesUp.service {before behind : List Service} {s s' : Service} (hg : g tSrv s.fqsn)
    (h : renameService r.domname s ret = some (s', ret'))
    (hrest : GivesUp g cs ({ r with services := before ++ s' :: behind }, ret') z) :
    GivesUp g (.service before.length :: cs) ({ r with services := before ++ s :: behind }, ret) z :=
  .cons (by simp [Rename.name]) hg (by simp [Rename.run, h]) hrest

theorem GivesUp.host (hg : g tA r.fqdn) (h : renameHost r ret = some (r', ret')) (services : List Service) :
    GivesUp g [.host] ({ r with services }, ret) ({ r' with services }, ret') := by
  refine .cons rfl hg ?_ (.nil _)
  obtain ⟨⟨fqdn, code⟩, hinc, h⟩ := bind_eq_some_iff.mp h
  simp only [pure, some.injEq] at h
  show (dnameIncrement r.fqdn >>= _) = _
  rw [hinc]
  show some _ = _
  split at h
  · next hcode =>
    cases h
    simp only [hcode, if_true]
    rfl
  · next hcode =>
    cases h
    simp only [hcode, if_false]

theorem answerConflictServices_cons {a : Resource} {domname : CString} {s : Service}
    (h : answerConflictServices fuel m a domname (s :: ss) ret = some (ss', ret')) :
    ∃ c s1 ret1 rest, dnameCmp fuel (.packet m.data) a.name (.plain s.fqsn) 0 = some c ∧
      (if c = 0 then renameService domname s ret else some (s, ret)) = some (s1, ret1) ∧
      answerConflictServices fuel m a domname ss ret1 = some (rest, ret') ∧ ss' = s1 :: rest := by
  obtain ⟨c, hcmp, h⟩ := bind_eq_some_iff.mp h
  dsimp only at h
  split at h
  · next hc =>
    obtain ⟨⟨s1, ret1⟩, hone, h⟩ := bind_eq_some_iff.mp h
    obtain ⟨⟨rest, ret2⟩, hrest, h⟩ := bind_eq_some_iff.mp h
    cases h
    exact ⟨c, s1, ret1, rest, hcmp, by rw [if_pos hc]; exact hone, hrest, rfl⟩
  · next hc =>
    obtain ⟨⟨s1, ret1⟩, hone, h⟩ := bind_eq_some_iff.mp h
    obtain ⟨⟨rest, ret2⟩, hrest, h⟩ := bind_eq_some_iff.mp h
    cases h
    exact ⟨c, s1, ret1, rest, hcmp, by rw [if_neg hc]; exact hone, hrest, rfl⟩

theorem answerConflictServices_givesUp {a : Resource} (before : List Service)
    (hg : ∀ name, Bears m a.name name → g tSrv name)
    (h : answerConflictServices fuel m a r.domname ss ret = some (ss', ret')) :
    ∃ cs, GivesUp g cs ({ r with services := before ++ ss }, ret) ({ r with services := before ++ ss' }, ret') := by
  induction ss generalizing before ret ss' with
  | nil =>
    cases h
    exact ⟨[], .nil _⟩
  | cons s ss ih =>
    obtain ⟨c, s1, ret1, rest, hcmp, hone, hrest, rfl⟩ := answerConflictServices_cons h
    obtain ⟨cs, hcs⟩ := ih (before ++ [s1]) hrest
    simp only [append_assoc, singleton_append] at hcs
    split at hone
    · next hc =>
      subst hc
      exact ⟨_, .service (hg _ (bears_of_cmp hcmp)) hone hcs⟩
    · cases hone
      exact ⟨cs, hcs⟩

theorem probeServices_givesUp {q : Question} {ss ss' : List (Service × Bool)} (before : List Service)
    (hg : ∀ fuel name, Bears m q.qname name → authoritySetCmp fuel m p name = some 1 → g tSrv name)
    (h : probeServices fuel m p q r.domname ss ret = some (ss', ret')) :
    ∃ cs, GivesUp g cs ({ r with services := before ++ ss.map Prod.fst }, ret)
      ({ r with services := before ++ ss'.map Prod.fst }, ret') := by
  induction ss generalizing before ret ss' with
  | nil =>
    cases h
    exact ⟨[], .nil _⟩
  | cons sc ss ih =>
    obtain ⟨s, checked⟩ := sc
    obtain ⟨⟨s1, checked1, ret1⟩, hs, h⟩ := bind_eq_some_iff.mp h
    obtain ⟨⟨rest, ret2⟩, hrest, h⟩ := bind_eq_some_iff.mp h
    cases h
    obtain ⟨cs, hcs⟩ := ih (before ++ [s1]) hrest
    simp only [append_assoc, singleton_append] at hcs
    unfold probeService at hs
    split at hs
    · cases hs
      exact ⟨cs, hcs⟩
    obtain ⟨c, hcmp, hs⟩ := bind_eq_some_iff.mp hs
    split at hs
    · next hc =>
      obtain ⟨c', hset, hs⟩ := bind_eq_some_iff.mp hs
      split at hs
      · next hone =>
        subst hc hone
        obtain ⟨⟨s2, ret3⟩, hren, hs⟩ := bind_eq_some_iff.mp hs
        cases hs
        exact ⟨_, .service (hg fuel _ (bears_of_cmp hcmp) hset) hren hcs⟩
      · cases hs
        exact ⟨cs, hcs⟩
    · cases hs
      exact ⟨cs, hcs⟩

theorem probeHost_givesUp {q : Question} (services : List Service)
    (hg : ∀ fuel name, Bears m q.qname name → authoritySetCmp fuel m p name = some 1 → g tA name)
    (h : probeHost fuel m p q r ret = some (r', ret')) :
    ∃ cs, GivesUp g cs ({ r with services }, ret) ({ r' with services }, ret') := by
  obtain ⟨c, hcmp, h⟩ := bind_eq_some_iff.mp h
  split at h
  · next hc =>
    obtain ⟨c', hset, h⟩ := bind_eq_some_iff.mp h
    split at h
    · next hone =>
      subst hc hone
      exact ⟨_, .host (hg fuel _ (bears_of_cmp hcmp) hset) h services⟩
    · cases h
      exact ⟨[], .nil _⟩
  · cases h
    exact ⟨[], .nil _⟩

theorem probeConflicts_givesUp {qs : List Question} (hqs : qs ⊆ m.questions) {ss ss' : List (Service × Bool)}
    (hg : ∀ type name, Wins m p name → g type name) (h : probeConflicts fuel m p qs r ss ret = some (r', ss', ret')) :
    ∃ cs, GivesUp g cs ({ r with services := ss.map Prod.fst },
      ret) ({ r' with services := ss'.map Prod.fst }, ret') := by
  induction qs generalizing r ss ret with
  | nil =>
    cases h
    exact ⟨[], .nil _⟩
  | cons q qs ih =>
    have hrest : qs ⊆ m.questions := fun _ hq => hqs (.tail _ hq)
    unfold probeConflicts at h
    split at h
    · exact ih hrest h
    · next hptr =>
      have hwins : ∀ type fuel name, Bears m q.qname name → authoritySetCmp fuel m p name = some 1 → g type name :=
        fun type fuel name hbears hset => hg type name ⟨⟨q, hqs (.head _), hptr, hbears⟩, fuel, hset⟩
      obtain ⟨⟨r1, ret1⟩, hhost, h⟩ := bind_eq_some_iff.mp h
      obtain ⟨⟨ss1, ret2⟩, hservices, h⟩ := bind_eq_some_iff.mp h
      obtain ⟨cs1, h1⟩ := probeHost_givesUp (ss.map Prod.fst) (hwins tA) hhost
      obtain ⟨cs2, h2⟩ := probeServices_givesUp [] (hwins tSrv) hservices
      obtain ⟨cs3, h3⟩ := ih hrest h
      exact ⟨_, (h1.append h2).append h3⟩

theorem answerConflictHost_givesUp {a : Resource} (hg : ∀ name, Bears m a.name name → g a.type name)
    (h : answerConflictHost fuel m a r ret = some (r', ret')) : ∃ cs, GivesUp g cs (r, ret) (r', ret') := by
  unfold answerConflictHost at h
  split at h
  · next htype =>
    obtain ⟨c, hcmp, h⟩ := bind_eq_some_iff.mp h
    split at h
    · next hc =>
      subst hc
      have hgrounds : g tA r.fqdn := htype ▸ hg _ (bears_of_cmp hcmp)
      exact ⟨[.host], .cons rfl hgrounds h (.nil _)⟩
    · cases h
      exact ⟨[], .nil _⟩
  · cases h
    exact ⟨[], .nil _⟩

theorem answerConflicts_givesUp {as : List Resource} (hg : ∀ a ∈ as, ∀ name, Bears m a.name name → g a.type name)
    (h : answerConflicts fuel m as r ret = some (r', ret')) : ∃ cs, GivesUp g cs (r, ret) (r', ret') := by
  induction as generalizing r ret with
  | nil =>
    cases h
    exact ⟨[], .nil _⟩
  | cons a as ih =>
    obtain ⟨hfirst, htail⟩ := forall_mem_cons.mp hg
    obtain ⟨⟨r1, ret1⟩, hhost, h⟩ := bind_eq_some_iff.mp h
    obtain ⟨cs1, h1⟩ := answerConflictHost_givesUp hfirst hhost
    dsimp only at h
    split at h
    · next htype =>
      obtain ⟨⟨services, ret2⟩, hservices, h⟩ := bind_eq_some_iff.mp h
      obtain ⟨cs2, h2⟩ := answerConflictServices_givesUp [] (htype ▸ hfirst) hservices
      obtain ⟨cs3, h3⟩ := ih htail h
      exact ⟨_, (h1.append h2).append h3⟩
    · obtain ⟨cs2, h2⟩ := ih htail h
      exact ⟨_, h1.append h2⟩

/-- Every change of the names is a series of renamings, each for what the message has. -/
theorem fixResponseConflicts_givesUp (h : fixResponseConflicts fuel r m p = some (r', ret)) :
    ∃ cs, GivesUp (Contests m p) cs (r, 0) (r', ret) := by
  unfold fixResponseConflicts at h
  split at h
  · next hprobe =>
    have hwins : ∀ type name, Wins m p name → Contests m p type name := fun type name hw => by
      rwa [Contests, if_pos (by simpa using hprobe)]
    obtain ⟨⟨r1, services, ret1⟩, hconf, h⟩ := bind_eq_some_iff.mp h
    cases h
    obtain ⟨cs, hcs⟩ := probeConflicts_givesUp (List.Subset.refl _) hwins hconf
    refine ⟨cs, ?_⟩
    simpa [Function.comp_def] using hcs
  · next hprobe =>
    refine answerConflicts_givesUp (fun a ha name hbears => ?_) h
    rw [Contests, if_neg (by simpa using hprobe)]
    exact ⟨a, ha, rfl, hbears⟩

end calls

section verdict
variable {r0 r r' : Responder} {ret ret' : Int} {c : Rename} {cs : List Rename}

def Responder.triesLeft (r : Responder) : Nat :=
  Mdns.triesLeft (firstLabel r.fqdn) + (r.services.map (fun s => Mdns.triesLeft (firstLabel s.fqsn))).sum

def Changed (r r' : Responder) : Prop :=
  firstLabel r'.fqdn ≠ firstLabel r.fqdn ∨
    r'.services.map (fun s => firstLabel s.fqsn) ≠ r.services.map (fun s => firstLabel s.fqsn)

theorem changed_of_triesLeft (h : r'.triesLeft < r.triesLeft) : Changed r r' := by
  by_contra hsame
  obtain ⟨hhost, hservices⟩ := not_or.mp hsame
  have hhost := not_not.mp hhost
  have hservices := congrArg (List.map Mdns.triesLeft) (not_not.mp hservices)
  simp only [List.map_map, Function.comp_def] at hservices
  unfold Responder.triesLeft at h
  rw [hhost, hservices] at h
  exact Nat.lt_irrefl _ h

theorem resets_iff_of_stepsOn {buf buf' : Mem} {reset : Bool} (hname : c.name r = some buf)
    (h : StepsOn buf buf' reset) :
    reset = true ↔ c.Resets r := by
  cases reset with
  | true =>
    obtain ⟨b, hb⟩ := h
    exact ⟨fun _ => ⟨buf, b, hname, hb⟩, fun _ => rfl⟩
  | false =>
    refine ⟨nofun, ?_⟩
    rintro ⟨name, b, hname', hb⟩
    rw [hname] at hname'
    cases hname'
    exact absurd hb (h.1 b)

theorem Naming.run (hc : r0.Renamable) (h : Naming r0 r) (hrun : c.run (r, ret) = some (r', ret')) :
    Naming r0 r' ∧ ∃ reset, ret' = renamedRet ret reset ∧ (reset = true ↔ c.Resets r) ∧
      (reset = false → r'.triesLeft + 1 = r.triesLeft) := by
  cases c with
  | host =>
    obtain ⟨fqdn, reset, heq, hnaming, hstep⟩ := h.renameHost hc ret
    rw [show Rename.host.run (r, ret) = Mdns.renameHost r ret from rfl, heq] at hrun
    cases hrun
    refine ⟨hnaming, reset, rfl, resets_iff_of_stepsOn rfl hstep, ?_⟩
    rintro rfl
    have := hstep.2
    simp only [Responder.triesLeft]
    omega
  | service i =>
    obtain ⟨s, hs, hrun⟩ := bind_eq_some_iff.mp hrun
    obtain ⟨s0, hs0, k, hk⟩ := forall₂_getElem? h.services hs
    have hdom : r.domname = r0.domname := by rw [h.config]
    have hs0c := hc.services s0 (mem_of_getElem? hs0)
    obtain ⟨s', reset, k', heq, hnaming, hstep⟩ := hk.renameService hs0c ret
    rw [hdom, heq] at hrun
    cases hrun
    refine ⟨⟨by rw [h.config], h.room, h.fqdn, ?_⟩, reset, rfl, resets_iff_of_stepsOn ?_ hstep, ?_⟩
    · refine forall₂_set h.services (fun a ha => ?_)
      rw [hs0] at ha
      cases ha
      exact ⟨k', hnaming⟩
    · simp [Rename.name, hs]
    · rintro rfl
      have hsum := sum_set (f := fun s => Mdns.triesLeft (firstLabel s.fqsn)) (b := s') hs
      have hnext := hstep.2
      simp only [Responder.triesLeft]
      omega

theorem Naming.renameAll (hc : r0.Renamable) (h : Naming r0 r) (hrun : Mdns.renameAll cs (r, ret) = some (r', ret')) :
    Naming r0 r' ∧ ((cs = [] ∧ r' = r ∧ ret' = ret) ∨ (AnyResets cs (r, ret) ∧ ret' = -1) ∨
      (¬ AnyResets cs (r, ret) ∧ ret' = renamedRet ret false ∧ r'.triesLeft < r.triesLeft)) := by
  induction cs generalizing r ret with
  | nil =>
    cases hrun
    exact ⟨h, .inl ⟨rfl, rfl, rfl⟩⟩
  | cons c cs ih =>
    obtain ⟨⟨r1, ret1⟩, hstep, hrest⟩ := bind_eq_some_iff.mp hrun
    obtain ⟨h1, reset, rfl, hreset, hless⟩ := h.run hc hstep
    obtain ⟨h', hcases⟩ := ih h1 hrest
    have hany : AnyResets (c :: cs) (r, ret) ↔ c.Resets r ∨ AnyResets cs (r1, renamedRet ret reset) := by
      simp only [AnyResets, hstep, some.injEq, exists_eq_left']
    refine ⟨h', .inr ?_⟩
    rw [hany, ← hreset]
    cases reset with
    | true =>
      refine .inl ⟨.inl rfl, ?_⟩
      rcases hcases with ⟨-, -, hret⟩ | ⟨-, hret⟩ | ⟨-, hret, -⟩
      · exact hret
      · exact hret
      · exact hret
    | false =>
      have hless := hless rfl
      rcases hcases with ⟨rfl, rfl, hret⟩ | ⟨hres, hret⟩ | ⟨hres, hret, hlt⟩
      · exact .inr ⟨by simp [AnyResets], hret, by omega⟩
      · exact .inl ⟨.inr hres, hret⟩
      · refine .inr ⟨by simpa using hres, ?_, by omega⟩
        rw [hret]
        unfold renamedRet
        split_ifs <;> simp_all

/-- Messages one after the other: fuel, the message and our probe at the time. -/
def processAll (inputs : List (Nat × Message × Message)) (r : Responder) : Option Responder :=
  inputs.foldlM (fun r x => (fixResponseConflicts x.1 r x.2.1 x.2.2).map Prod.fst) r

theorem Naming.fixResponseConflicts {fuel : Nat} {m p : Message} (hc : r0.Renamable) (h : Naming r0 r)
    (hfix : Mdns.fixResponseConflicts fuel r m p = some (r', ret)) : Naming r0 r' := by
  obtain ⟨cs, hcs⟩ := fixResponseConflicts_givesUp hfix
  exact (h.renameAll hc hcs.renameAll).1

theorem Naming.processAll (hc : r0.Renamable) (h : Naming r0 r) {inputs : List (Nat × Message × Message)}
    (hrun : Mdns.processAll inputs r = some r') : Naming r0 r' := by
  induction inputs generalizing r with
  | nil =>
    cases hrun
    exact h
  | cons x inputs ih =>
    obtain ⟨r1, hstep, hrest⟩ := bind_eq_some_iff.mp hrun
    obtain ⟨⟨r2, ret⟩, hfix, rfl⟩ := map_eq_some_iff.mp hstep
    exact ih (h.fixResponseConflicts hc hfix) hrest

/-- What the return value says about the renamings `cs` that led from `r` to `r'`. -/
structure RightVerdict (r r' : Responder) (ret : Int) (cs : List Rename) : Prop where
  range : ret = 0 ∨ ret = 1 ∨ ret = -1
  unchanged : ret = 0 → r' = r
  renamed : ret = 1 → Changed r r' ∧ ¬ AnyResets cs (r, 0)
  reset : ret = -1 → AnyResets cs (r, 0)

/-- After any messages all names are on their chains, and the next message is a series of renamings
that the return value tells the truth about. -/
theorem fixResponseConflicts_naming (hc : r0.Configured) (inputs : List (Nat × Message × Message))
    (hrun : processAll inputs r0.named = some r) :
    Naming r0 r ∧ ∀ fuel m p r' ret, fixResponseConflicts fuel r m p = some (r', ret) →
      ∃ cs, renameAll cs (r, 0) = some (r', ret) ∧ RightVerdict r r' ret cs := by
  have hren := hc.renamable
  have hnaming := (naming_named hren).processAll hren hrun
  refine ⟨hnaming, fun fuel m p r' ret hfix => ?_⟩
  obtain ⟨cs, hcs⟩ := fixResponseConflicts_givesUp hfix
  refine ⟨cs, hcs.renameAll, ?_⟩
  rcases (hnaming.renameAll hren hcs.renameAll).2 with ⟨-, rfl, rfl⟩ | ⟨hany, rfl⟩ | ⟨hany, rfl, hless⟩
  · exact ⟨.inl rfl, fun _ => rfl, nofun, nofun⟩
  · exact ⟨.inr (.inr rfl), nofun, nofun, fun _ => hany⟩
  · exact ⟨.inr (.inl rfl), nofun, fun _ => ⟨changed_of_triesLeft hless, hany⟩, nofun⟩

/-- A host `foo.local` with the service `web._http._tcp`. -/
def fooHost : Responder :=
  { hname := fooName, domname := localDomain
    fqdn := replicate 256 0, myIpaddr := 1
    services := [{ servname := ⟨[119, 101, 98], by decide⟩, servtype := httpServtype, port := 80,
                   proto := .tcp, fqsn := replicate 255 0 }]
    tx := { data := [], mend := 0, cur := 0 }, rx := [] }

/-- An answer of type `type` for a name that stands behind the header. -/
def answerFor (ls : Labels) (type : Nat) : Message :=
  { data := replicate 12 0 ++ encodeName ls, mend := 0, cur := 0
    answers := [{ name := 12, type, cls := cIn, ttl := 120, rdlength := 0, rdata := 0 }] }

/-- Another host has `foo.local` and `foo-2.local`, and its service has the name of ours. -/
def fooConflicts : List (Nat × Message × Message) :=
  [(20, answerFor [[102, 111, 111], [108, 111, 99, 97, 108]] tA, fooHost.tx),
    (20, answerFor [[102, 111, 111, 45, 50], [108, 111, 99, 97, 108]] tA, fooHost.tx),
    (20, answerFor [[119, 101, 98], [95, 104, 116, 116, 112], [95, 116, 99, 112],
      [108, 111, 99, 97, 108]] tSrv, fooHost.tx)]

theorem fixResponseConflicts_naming_foo : ∃ r, processAll fooConflicts fooHost.named = some r ∧
    firstLabel r.fqdn = [102, 111, 111, 45, 51] ∧
      r.services.map (fun s => firstLabel s.fqsn) = [[119, 101, 98, 45, 50]] ∧
    Naming fooHost r := by
  have hc : fooHost.Configured := ⟨by decide, by decide, length_replicate, by
    intro s hs
    obtain rfl := mem_singleton.mp hs
    exact ⟨by decide, by decide, length_replicate⟩⟩
  have hsome : (processAll fooConflicts fooHost.named).map
    (fun r => (firstLabel r.fqdn, r.services.map (fun s => firstLabel s.fqsn))) =
      some ([102, 111, 111, 45, 51], [[119, 101, 98, 45, 50]]) := by decide +kernel
  obtain ⟨r, hr, heq⟩ := map_eq_some_iff.mp hsome
  obtain ⟨hhost, hservices⟩ := Prod.mk.inj heq
  exact ⟨r, hr, hhost, hservices, (fixResponseConflicts_naming hc fooConflicts hr).1⟩

end verdict

end Mdns
