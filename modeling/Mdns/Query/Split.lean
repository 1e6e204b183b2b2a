import Mdns.Dname.Agree
import Mdns.Lib.Logged
import Mdns.Query.Lookup
import Mdns.Store

/-!
# Taking an instance name apart

`copy_servinfo` goes through a name twice, and none of its functions knows where the name ends. What
they read is logged here, together with whether the place is one behind the terminating zero of the
name.
-/
namespace Mdns
open Lib List

section reads

/-- A pointer into the packet. It is past the name once it has been moved over a zero byte as if that were a
label. -/
structure Cursor where
  pos : Nat
  past : Bool
  deriving DecidableEq

abbrev PacketReads := Logged Cursor

variable (p : Mem)

/-- `*c`. -/
def Cursor.read (c : Cursor) : PacketReads Nat := logged [c] (byte p c.pos)

/-- `p + POINTER(c)`. -/
def Cursor.follow (c : Cursor) : PacketReads Cursor :=
  logged [c, { c with pos := c.pos + 1 }] { c with pos := pointer p c.pos }

/-- The first `len` bytes behind a length. -/
def Cursor.text (c : Cursor) (len : Nat) : PacketReads (List UInt8) :=
  logged ((List.range len).map fun i => { c with pos := c.pos + 1 + i }) (slice p (c.pos + 1) len)

def Cursor.over (c : Cursor) : Cursor := ⟨c.pos + 1 + byte p c.pos, c.past || byte p c.pos == 0⟩

/-- `while (IS_POINTER(*n)) n = p + POINTER(n)`. -/
def chaseReads : Nat → Cursor → PacketReads Cursor
  | 0, _ => failure
  | fuel+1, c => do
    let b ← c.read p
    if isPointer b then
      let c ← c.follow p
      chaseReads fuel c
    else return c

/-- `dname_copy`, with the flag for its inner loop. -/
def copyReads : Nat → Bool → Cursor → Mem → PacketReads (Mem × Int)
  | 0, _, _, _ => failure
  | fuel+1, inner, c, dst => do
    let b ← c.read p
    if !inner && b = 0 then return (dst ++ [0], 0)
    else if isPointer b then
      let c ← c.follow p
      copyReads fuel true c dst
    else if dst.length + b + 1 ≥ maxNameLen then return (dst ++ [0], -1)
    else
      let text ← c.text p b
      copyReads fuel false (c.over p) (dst ++ dnamePutLabel text)

/-- `dname_label_to_c`. -/
def labelToCReads (fuel : Nat) (src : Cursor) (keepuscores : Bool) : PacketReads (Option (List UInt8 × Cursor)) := do
  let src ← chaseReads p fuel src
  let len ← src.read p
  if len ≥ maxLabelLen then return none
  else
    let text ← src.text p len
    return some (labelText keepuscores text, src.over p)

/-- `dname_label_cmp` of a label that is given with one in the packet. -/
def labelCmpReads (fuel : Nat) (label : List UInt8) (l2 : Cursor) : PacketReads Int := do
  let l2 ← chaseReads p fuel l2
  let len ← l2.read p
  let _ ← l2.text p (min label.length len)
  return cmpBytes label (slice p (l2.pos + 1) len)

/-- `dname_label_next`. -/
def labelNextReads (fuel : Nat) (n : Cursor) : PacketReads (Option Cursor) := do
  let n ← chaseReads p fuel n
  let _ ← n.read p
  let b ← (n.over p).read p
  return if b = 0 then none else some (n.over p)

/-- What `copy_servinfo` puts into a service. -/
structure ServInfo where
  fqsn : Mem
  servname : List UInt8
  servtype : List UInt8
  proto : Proto
  domain : List UInt8
  deriving DecidableEq

def ServInfo.into {n k : Nat} (info : ServInfo) (i : ServiceInstance n k) : ServiceInstance n k :=
  { i with fqsn := info.fqsn, servname := info.servname, servtype := info.servtype, proto := info.proto,
           domain := info.domain }

/-- The part of `copy_servinfo` behind the comparisons of the protocol. -/
def domainReads (fuel : Nat) (name : Mem) (servname servtype : List UInt8) (protoAt : Cursor) (isTcp isUdp : Int) :
    PacketReads (Option ServInfo) := do
  if isTcp ≠ 0 ∧ isUdp ≠ 0 then return none
  else match ← labelNextReads p fuel protoAt with
    | none => return none
    | some domainAt => match ← labelToCReads p fuel domainAt false with
      | none => return none
      | some (domain, _) =>
        return some { fqsn := name, servname, servtype, proto := if isTcp = 0 then .tcp else .udp, domain }

/-- The part behind `dname_copy`. The second comparison reads what the first has read. -/
def afterCopyReads (fuel : Nat) (fqsn : Nat) (copied : Mem × Int) : PacketReads (Option ServInfo) := do
  if copied.2 = -1 then return none
  else match ← labelToCReads p fuel ⟨fqsn, false⟩ true with
    | none => return none
    | some (servname, typeAt) => match ← labelToCReads p fuel typeAt false with
      | none => return none
      | some (servtype, protoAt) => do
        let isTcp ← labelCmpReads p fuel tcpLabel protoAt
        let isUdp ← labelCmpReads p fuel udpLabel protoAt
        domainReads p fuel copied.1 servname servtype protoAt isTcp isUdp

/-- `copy_servinfo`. -/
def servinfoReads (fuel : Nat) (fqsn : Nat) : PacketReads (Option ServInfo) := do
  let copied ← copyReads p fuel false ⟨fqsn, false⟩ []
  afterCopyReads p fuel fqsn copied

end reads

section erasure
variable (p : Mem) (fuel : Nat) {label : List UInt8}

theorem erases_chaseReads (c : Cursor) : Erases Cursor.pos (chaseReads p fuel c) (chase fuel (.packet p) c.pos) := by
  induction fuel generalizing c with
  | zero => exact erases_failure _
  | succ fuel ih =>
    unfold chaseReads chase
    apply Erases.after
    by_cases hp : isPointer (byte p c.pos) = true
    · have hgo : chaseBody (.packet p) c.pos = .inl (pointer p c.pos) := by simp [chaseBody, Src.packet, hp]
      rw [if_pos hp, loop_continue hgo]
      exact (ih { c with pos := pointer p c.pos }).after _
    · have hstop : chaseBody (.packet p) c.pos = .inr (some c.pos) := by simp [chaseBody, Src.packet, hp]
      rw [if_neg hp, loop_break hstop]
      exact erases_pure _ _

theorem erases_copyReads (inner : Bool) (c : Cursor) (dst : Mem) :
    Erases id (copyReads p fuel inner c dst) (loop (copyBody p) fuel (inner, c.pos, dst)) := by
  induction fuel generalizing inner c dst with
  | zero => exact erases_failure _
  | succ fuel ih =>
    unfold copyReads
    apply Erases.after
    have hbody : copyBody p (inner, c.pos, dst) =
        if !inner && byte p c.pos = 0 then .inr (dst ++ [0], 0)
        else if isPointer (byte p c.pos) then .inl (true, pointer p c.pos, dst)
        else if dst.length + byte p c.pos + 1 ≥ maxNameLen then .inr (dst ++ [0], -1)
        else .inl (false, c.pos + byte p c.pos + 1, dst ++ slice p c.pos (byte p c.pos + 1)) := rfl
    by_cases hz : (!inner && byte p c.pos = 0) = true
    · rw [if_pos hz] at hbody ⊢
      rw [loop_break hbody]
      exact erases_pure _ _
    · rw [if_neg hz] at hbody ⊢
      by_cases hp : isPointer (byte p c.pos) = true
      · rw [if_pos hp] at hbody ⊢
        rw [loop_continue hbody]
        exact (ih true { c with pos := pointer p c.pos } dst).after _
      · rw [if_neg hp] at hbody ⊢
        by_cases hfull : dst.length + byte p c.pos + 1 ≥ maxNameLen
        · rw [if_pos hfull] at hbody ⊢
          rw [loop_break hbody]
          exact erases_pure _ _
        · rw [if_neg hfull, slice_label, Nat.add_right_comm] at hbody
          rw [if_neg hfull, loop_continue hbody]
          exact (ih false (c.over p) _).after _

theorem erases_labelToCReads (src : Cursor) (keep : Bool) :
    Erases (Option.map fun r => (r.1, r.2.pos)) (labelToCReads p fuel src keep)
      (dnameLabelToC fuel p src.pos keep) := by
  refine (erases_chaseReads p fuel src).bind (fun c => ?_)
  apply Erases.after
  dsimp only
  by_cases hlong : byte p c.pos ≥ maxLabelLen
  · rw [if_pos hlong, if_pos hlong]
    exact erases_pure _ _
  · rw [if_neg hlong, if_neg hlong]
    exact (erases_pure _ _).after _

theorem labelAlone (h : label.length < 64) :
    byte (dnamePutLabel label) 0 = label.length ∧ slice (dnamePutLabel label) 1 label.length = label := by
  constructor
  · exact toNat_ofNat_lt (by omega)
  · have hat : At (dnamePutLabel label) 1 label := ⟨[UInt8.ofNat label.length], [], by simp [dnamePutLabel], rfl⟩
    exact hat.slice

theorem erases_labelCmpReads (hlabel : label.length < 64) (l2 : Cursor) :
    Erases id (labelCmpReads p fuel label l2)
      (dnameLabelCmp fuel (.plain (dnamePutLabel label)) 0 (.packet p) l2.pos) := by
  obtain ⟨hlen, htext⟩ := labelAlone hlabel
  cases fuel with
  | zero => exact erases_failure _
  | succ fuel =>
    have hstop : chaseBody (.plain (dnamePutLabel label)) 0 = .inr (some 0) := by
      have hplain : isPointer (byte (dnamePutLabel label) 0) = false := by
        rw [hlen]
        exact decide_eq_false (by omega)
      simp [chaseBody, Src.plain, hplain]
    have hchase : chase (fuel + 1) (.plain (dnamePutLabel label)) 0 = some 0 := by
      unfold chase
      rw [loop_break hstop]
      rfl
    unfold dnameLabelCmp
    rw [hchase]
    refine (erases_chaseReads p (fuel + 1) l2).bind (fun c => ?_)
    apply Erases.after
    apply Erases.after
    have hcmp : labelCmpAt (dnamePutLabel label) 0 p c.pos = cmpBytes label (slice p (c.pos + 1) (byte p c.pos)) := by
      unfold labelCmpAt
      rw [hlen, htext]
    intro log
    exact congrArg some hcmp.symm

theorem erases_labelNextReads (n : Cursor) :
    Erases (Option.map Cursor.pos) (labelNextReads p fuel n) (dnameLabelNext fuel (.packet p) n.pos) := by
  refine (erases_chaseReads p fuel n).bind (fun c => ?_)
  apply Erases.after
  apply Erases.after
  intro log
  have hover : (c.over p).pos = c.pos + byte p c.pos + 1 := Nat.add_right_comm ..
  show some (Option.map Cursor.pos (if byte p (c.over p).pos = 0 then none else some (c.over p))) = some _
  rw [hover]
  by_cases hz : byte p (c.pos + byte p c.pos + 1) = 0
  · rw [if_pos hz]
    exact congrArg some (if_pos hz).symm
  · rw [if_neg hz, Option.map_some, hover]
    exact congrArg some (if_neg hz).symm

theorem erases_servinfoReads {n k : Nat} (i : ServiceInstance n k) (m : Message) (fqsn : Nat) :
    Erases (Option.map (·.into i)) (servinfoReads m.data fuel fqsn) (copyServinfo fuel i m fqsn) := by
  refine (erases_copyReads m.data fuel false ⟨fqsn, false⟩ []).bind (fun r => ?_)
  obtain ⟨name, ret⟩ := r
  unfold afterCopyReads
  dsimp only [id]
  by_cases hret : ret = -1
  · rw [if_pos hret, if_pos hret]
    exact erases_pure _ _
  · rw [if_neg hret, if_neg hret]
    refine (erases_labelToCReads m.data fuel ⟨fqsn, false⟩ true).bind (fun r => ?_)
    rcases r with - | ⟨servname, typeAt⟩
    · exact erases_pure _ _
    · refine (erases_labelToCReads m.data fuel typeAt false).bind (fun r => ?_)
      rcases r with - | ⟨servtype, protoAt⟩
      · exact erases_pure _ _
      · refine (erases_labelCmpReads m.data fuel (by decide) protoAt).bind (fun isTcp => ?_)
        refine (erases_labelCmpReads m.data fuel (by decide) protoAt).bind (fun isUdp => ?_)
        unfold domainReads
        dsimp only [id]
        by_cases hproto : isTcp ≠ 0 ∧ isUdp ≠ 0
        · rw [if_pos hproto, if_pos hproto]
          exact erases_pure _ _
        · rw [if_neg hproto, if_neg hproto]
          refine (erases_labelNextReads m.data fuel protoAt).bind (fun r => ?_)
          rcases r with - | domainAt
          · exact erases_pure _ _
          · refine (erases_labelToCReads m.data fuel domainAt false).bind (fun r => ?_)
            rcases r with - | ⟨domain, rest⟩
            · exact erases_pure _ _
            · exact erases_pure _ _

end erasure

section grows
variable (p : Mem) (fuel : Nat)

theorem grows_chaseReads (c : Cursor) : Grows (chaseReads p fuel c) := by
  induction fuel generalizing c with
  | zero => exact grows_failure
  | succ fuel ih =>
    refine (grows_logged _ _).bind (fun b => ?_)
    split
    · exact (grows_logged _ _).bind (fun c => ih c)
    · exact grows_pure c

theorem grows_copyReads (inner : Bool) (c : Cursor) (dst : Mem) : Grows (copyReads p fuel inner c dst) := by
  induction fuel generalizing inner c dst with
  | zero => exact grows_failure
  | succ fuel ih =>
    refine (grows_logged _ _).bind (fun b => ?_)
    split
    · exact grows_pure _
    · split
      · exact (grows_logged _ _).bind (fun c => ih true c dst)
      · split
        · exact grows_pure _
        · exact (grows_logged _ _).bind (fun text => ih false (c.over p) _)

theorem grows_labelToCReads (c : Cursor) (keep : Bool) : Grows (labelToCReads p fuel c keep) := by
  refine (grows_chaseReads p fuel c).bind (fun c => (grows_logged _ _).bind (fun len => ?_))
  split
  · exact grows_pure _
  · exact (grows_logged _ _).bind (fun text => grows_pure _)

theorem grows_labelCmpReads (label : List UInt8) (c : Cursor) : Grows (labelCmpReads p fuel label c) :=
  (grows_chaseReads p fuel c).bind fun _ => (grows_logged _ _).bind fun _ =>
    (grows_logged _ _).bind fun _ => grows_pure _

theorem grows_labelNextReads (c : Cursor) : Grows (labelNextReads p fuel c) :=
  (grows_chaseReads p fuel c).bind fun _ => (grows_logged _ _).bind fun _ =>
    (grows_logged _ _).bind fun _ => grows_pure _

theorem grows_domainReads (name : Mem) (servname servtype : List UInt8) (protoAt : Cursor) (isTcp isUdp : Int) :
    Grows (domainReads p fuel name servname servtype protoAt isTcp isUdp) := by
  unfold domainReads
  split
  · exact grows_pure none
  · refine (grows_labelNextReads p fuel protoAt).bind (fun next => ?_)
    cases next with
    | none => exact grows_pure none
    | some domainAt =>
      refine (grows_labelToCReads p fuel domainAt false).bind (fun domain => ?_)
      cases domain with
      | none => exact grows_pure none
      | some domain => exact grows_pure _

theorem grows_afterCopy (off : Nat) (r : Mem × Int) : Grows (afterCopyReads p fuel off r) := by
  unfold afterCopyReads
  split
  · exact grows_pure none
  · refine (grows_labelToCReads p fuel ⟨off, false⟩ true).bind (fun servname => ?_)
    rcases servname with - | ⟨servname, typeAt⟩
    · exact grows_pure none
    · refine (grows_labelToCReads p fuel typeAt false).bind (fun servtype => ?_)
      rcases servtype with - | ⟨servtype, protoAt⟩
      · exact grows_pure none
      · refine (grows_labelCmpReads p fuel tcpLabel protoAt).bind (fun isTcp => ?_)
        exact (grows_labelCmpReads p fuel udpLabel protoAt).bind
          (fun isUdp => grows_domainReads p fuel _ _ _ protoAt isTcp isUdp)

end grows

section walks
variable {p : Mem} {e n z : Nat} {b d : Bool} {l label : List UInt8} {ls : Labels} {dst : Mem}

def Cursor.Within (c : Cursor) : Prop := c.past = false

theorem does_read (n : Nat) : Does Cursor.Within (fun _ => Cursor.read p ⟨n, false⟩) (byte p n) :=
  does_logged (fun c hc => by rw [mem_singleton.mp hc]; rfl)

theorem does_follow (n : Nat) : Does Cursor.Within (fun _ => Cursor.follow p ⟨n, false⟩) ⟨pointer p n, false⟩ := by
  apply does_logged
  intro c hc
  rcases mem_cons.mp hc with rfl | hc
  · rfl
  · rw [mem_singleton.mp hc]
    rfl

theorem does_text (n len : Nat) : Does Cursor.Within (fun _ => Cursor.text p ⟨n, false⟩ len) (slice p (n + 1) len) := by
  apply does_logged
  intro c hc
  obtain ⟨i, -, rfl⟩ := List.mem_map.mp hc
  rfl

theorem Spells.chaseReads (h : Spells p e b n ls d z) :
    ∃ n' b', Does Cursor.Within (fun fuel => chaseReads p fuel ⟨n, false⟩) ⟨n', false⟩ ∧
    Spells p e b' n' ls d z ∧ isPointer (byte p n') = false := by
  have hstop : ∀ {n}, isPointer (byte p n) = false →
    Does Cursor.Within (fun fuel => Mdns.chaseReads p fuel ⟨n, false⟩) ⟨n, false⟩ := by
    intro n hp
    refine Does.step (fun fuel => rfl) ((does_read n).bind ?_)
    simp only [hp, Bool.false_eq_true, if_false]
    exact does_pure _
  induction h with
  | @root b n hin hz => exact ⟨n, b, hstop (by rw [hz]; rfl), .root hin hz, by rw [hz]; rfl⟩
  | @label b d n z ls hin hz hp hrest _ => exact ⟨n, b, hstop hp, .label hin hz hp hrest, hp⟩
  | @jump b d n z ls hin hp hrest ih =>
    obtain ⟨n', b', hdoes, hspells, hp'⟩ := ih
    refine ⟨n', b', Does.step (fun fuel => rfl) ((does_read n).bind ?_), hspells, hp'⟩
    simp only [hp, if_true]
    exact (does_follow n).bind hdoes

theorem Spells.first (h : Spells p e b n (l :: ls) d z) :
    ∃ n', Does Cursor.Within (fun fuel => Mdns.chaseReads p fuel ⟨n, false⟩) ⟨n', false⟩ ∧
      byte p n' = l.length ∧ 0 < l.length ∧
      slice p (n' + 1) l.length = l ∧ Spells p e false (n' + 1 + l.length) ls d z := by
  obtain ⟨n', b', hdoes, hspells, hp⟩ := h.chaseReads
  cases hspells with
  | label _ hz _ hrest =>
    refine ⟨n', hdoes, (slice_length ..).symm, ?_, ?_, ?_⟩
    · rw [slice_length]
      exact Nat.pos_of_ne_zero hz
    · rw [slice_length]
    · rw [slice_length, Nat.add_right_comm]
      exact hrest
  | jump _ hjump _ =>
    rw [hp] at hjump
    cases hjump

theorem Spells.last (h : Spells p e b n [] d z) :
    ∃ n', Does Cursor.Within (fun fuel => Mdns.chaseReads p fuel ⟨n, false⟩) ⟨n', false⟩ ∧ byte p n' = 0 := by
  obtain ⟨n', b', hdoes, hspells, hp⟩ := h.chaseReads
  cases hspells with
  | root _ hz => exact ⟨_, hdoes, hz⟩
  | jump _ hjump _ =>
    rw [hp] at hjump
    cases hjump

theorem Spells.zero (h : Spells p e b n ls d z) (hls : ls = []) (hd : d = false) : b = false ∧ byte p n = 0 := by
  induction h with
  | root _ hz => exact ⟨hd, hz⟩
  | label => cases hls
  | jump _ _ _ ih => exact absurd (ih hls hd).1 nofun

theorem over_of_ne_zero (hz : byte p n ≠ 0) : Cursor.over p ⟨n, false⟩ = ⟨n + byte p n + 1, false⟩ := by
  rw [Nat.add_right_comm]
  simp only [Cursor.over, beq_eq_false_iff_ne.mpr hz, Bool.or_self]

theorem over_label (hb : byte p n = l.length) (hl : 0 < l.length) :
    Cursor.over p ⟨n, false⟩ = ⟨n + 1 + l.length, false⟩ := by
  rw [over_of_ne_zero (by omega), hb, Nat.add_right_comm]

theorem over_zero (hz : byte p n = 0) : Cursor.over p ⟨n, false⟩ = ⟨n + 1, true⟩ := by
  simp only [Cursor.over, hz, Nat.add_zero, beq_self_eq_true, Bool.or_true]

theorem Spells.labelToC (h : Spells p e b n (l :: ls) d z) (hl : l.length < maxLabelLen) (keep : Bool) :
    ∃ n', Does Cursor.Within (fun fuel => labelToCReads p fuel ⟨n, false⟩ keep) (some (labelText keep l, ⟨n', false⟩)) ∧
      Spells p e false n' ls d z := by
  obtain ⟨n', hdoes, hbyte, hpos, hslice, hrest⟩ := h.first
  refine ⟨n' + 1 + l.length, hdoes.bind ((does_read n').bind ?_), hrest⟩
  simp only [hbyte, if_neg (Nat.not_le_of_lt hl), over_label hbyte hpos]
  refine (does_text n' l.length).bind ?_
  simp only [hslice]
  exact does_pure _

theorem Spells.labelToC_long (h : Spells p e b n (l :: ls) d z) (hl : maxLabelLen ≤ l.length) (keep : Bool) :
    Does Cursor.Within (fun fuel => labelToCReads p fuel ⟨n, false⟩ keep) none := by
  obtain ⟨n', hdoes, hbyte, -⟩ := h.first
  refine hdoes.bind ((does_read n').bind ?_)
  simp only [hbyte, ge_iff_le, if_pos hl]
  exact does_pure _

theorem Spells.labelToC_last (h : Spells p e b n [] d z) (keep : Bool) :
    ∃ n', Does Cursor.Within (fun fuel => labelToCReads p fuel ⟨n, false⟩ keep)
      (some (labelText keep [], ⟨n', true⟩)) := by
  obtain ⟨n', hdoes, hz⟩ := h.last
  refine ⟨n' + 1, hdoes.bind ((does_read n').bind ?_)⟩
  simp only [hz, if_neg (show ¬ 0 ≥ maxLabelLen by decide), over_zero hz]
  exact (does_text n' 0).bind (does_pure _)

theorem Spells.labelCmp (h : Spells p e b n (l :: ls) d z) (label : List UInt8) :
    Does Cursor.Within (fun fuel => labelCmpReads p fuel label ⟨n, false⟩) (cmpBytes label l) := by
  obtain ⟨n', hdoes, hbyte, -, hslice, -⟩ := h.first
  refine hdoes.bind ((does_read n').bind ((does_text n' _).bind ?_))
  simp only [hbyte, hslice]
  exact does_pure _

theorem Spells.labelCmp_last (h : Spells p e b n [] d z) (label : List UInt8) :
    Does Cursor.Within (fun fuel => labelCmpReads p fuel label ⟨n, false⟩) (cmpBytes label []) := by
  obtain ⟨n', hdoes, hz⟩ := h.last
  refine hdoes.bind ((does_read n').bind ((does_text n' _).bind ?_))
  simp only [hz]
  exact does_pure _

theorem Spells.labelNext (h : Spells p e b n (l :: label :: ls) d z) :
    ∃ n', Does Cursor.Within (fun fuel => labelNextReads p fuel ⟨n, false⟩) (some ⟨n', false⟩) ∧
      Spells p e false n' (label :: ls) d z := by
  obtain ⟨n', hdoes, hbyte, hpos, -, hrest⟩ := h.first
  refine ⟨n' + 1 + l.length, hdoes.bind ((does_read n').bind ?_), hrest⟩
  rw [over_label hbyte hpos]
  refine (does_read _).bind ?_
  have hne : byte p (n' + 1 + l.length) ≠ 0 := hrest.expands.byte_ne_zero
  simp only [if_neg hne]
  exact does_pure _

theorem Spells.labelNext_last (h : Spells p e b n [l] false z) :
    Does Cursor.Within (fun fuel => labelNextReads p fuel ⟨n, false⟩) none := by
  obtain ⟨n', hdoes, hbyte, hpos, -, hrest⟩ := h.first
  refine hdoes.bind ((does_read n').bind ?_)
  rw [over_label hbyte hpos]
  refine (does_read _).bind ?_
  simp only [if_pos (hrest.zero rfl rfl).2]
  exact does_pure _

end walks

section copies
variable {p : Mem} {e n z : Nat} {b d : Bool} {l : List UInt8} {ls : Labels} {dst : Mem} {r : Mem × Int}

theorem copyReads_jump (hp : isPointer (byte p n) = true) (fuel : Nat) (b : Bool) (dst : Mem) :
    copyReads p (fuel + 1) b ⟨n, false⟩ dst =
      Cursor.read p ⟨n, false⟩ >>= fun _ => Cursor.follow p ⟨n, false⟩ >>= fun c => copyReads p fuel true c dst := by
  have hz : byte p n ≠ 0 := ne_zero_of_isPointer hp
  funext log
  show (if !b && byte p n = 0 then _ else if isPointer (byte p n) then _ else _ : PacketReads
    (Mem × Int)) ([⟨n, false⟩] ++ log) = _
  simp only [hz, decide_false, Bool.and_false, Bool.false_eq_true, if_false, hp, if_true]
  rfl

theorem copyReads_label (hp : isPointer (byte p n) = false) (hz : b = true ∨ byte p n ≠ 0) (fuel : Nat) (dst : Mem) :
    copyReads p (fuel + 1) b ⟨n, false⟩ dst = Cursor.read p ⟨n, false⟩ >>= fun _ =>
      if dst.length + byte p n + 1 ≥ maxNameLen then pure (dst ++ [0], -1)
      else Cursor.text p ⟨n, false⟩ (byte p n) >>= fun text =>
        copyReads p fuel false (Cursor.over p ⟨n, false⟩) (dst ++ dnamePutLabel text) := by
  have hgo : (!b && decide (byte p n = 0)) = false := by
    rcases hz with rfl | hz
    · rfl
    · rw [decide_eq_false hz, Bool.and_false]
  funext log
  show (if !b && byte p n = 0 then _ else if isPointer (byte p n) then _ else _ : PacketReads
    (Mem × Int)) ([⟨n, false⟩] ++ log) = _
  simp only [hgo, hp, Bool.false_eq_true, if_false]
  rfl

theorem does_copyReads_label (hp : isPointer (byte p n) = false) (hz : byte p n ≠ 0)
    (hroom : dst.length + byte p n + 1 < maxNameLen)
    (hrest : Does Cursor.Within (fun fuel => copyReads p fuel false ⟨n + byte p n + 1, false⟩
      (dst ++ dnamePutLabel (slice p (n + 1) (byte p n)))) r) :
    Does Cursor.Within (fun fuel => copyReads p fuel b ⟨n, false⟩ dst) r := by
  refine Does.step (fun fuel => copyReads_label hp (.inr hz) fuel dst) ((does_read n).bind ?_)
  simp only [ge_iff_le, if_neg (Nat.not_le_of_lt hroom), over_of_ne_zero hz]
  exact (does_text n _).bind hrest

theorem does_copyReads_full (hp : isPointer (byte p n) = false) (hz : b = true ∨ byte p n ≠ 0)
    (hfull : maxNameLen ≤ dst.length + byte p n + 1) :
    Does Cursor.Within (fun fuel => copyReads p fuel b ⟨n, false⟩ dst) (dst ++ [0], -1) := by
  refine Does.step (fun fuel => copyReads_label hp hz fuel dst) ((does_read n).bind ?_)
  simp only [ge_iff_le, if_pos hfull]
  exact does_pure _

theorem does_copyReads_jump (hp : isPointer (byte p n) = true)
    (hrest : Does Cursor.Within (fun fuel => copyReads p fuel true ⟨pointer p n, false⟩ dst) r) :
    Does Cursor.Within (fun fuel => copyReads p fuel b ⟨n, false⟩ dst) r :=
  Does.step (fun fuel => copyReads_jump hp fuel b dst) ((does_read n).bind ((does_follow n).bind hrest))

theorem length_append_putLabel (dst : Mem) (n : Nat) :
    (dst ++ dnamePutLabel (slice p (n + 1) (byte p n))).length = dst.length + byte p n + 1 := by
  rw [length_append, dnamePutLabel, length_cons, slice_length, Nat.add_assoc]

theorem Spells.copyReads (h : Spells p e b n ls d z) (hd : d = false)
    (hfits : dst.length + (encodeName ls).length ≤ maxNameLen) :
    Does Cursor.Within (fun fuel => copyReads p fuel b ⟨n, false⟩ dst) (dst ++ encodeName ls, 0) := by
  induction h generalizing dst with
  | @root b n _ hz =>
    subst hd
    refine Does.step (fun fuel => rfl) ((does_read n).bind ?_)
    simp only [hz, Bool.not_false, decide_true, Bool.and_self, if_true]
    exact does_pure _
  | @label b d n z ls _ hz hp _ ih =>
    rw [length_encodeName_cons, slice_length] at hfits
    have hpos : 0 < (encodeName ls).length := by simp [encodeName]
    apply does_copyReads_label hp hz (by omega)
    rw [encodeName_cons, ← append_assoc]
    apply ih hd
    rw [length_append_putLabel]
    omega
  | jump _ hp _ ih => exact does_copyReads_jump hp (ih hd hfits)

/-- A name that is too long is given up; one that would just fit is given up if a pointer leads to its zero byte. -/
theorem Spells.copyReads_long (h : Spells p e b n ls d z) (hdst : dst.length < maxNameLen)
    (hlong : maxNameLen < dst.length + (encodeName ls).length ∨ d = true ∧
      maxNameLen = dst.length + (encodeName ls).length) :
    ∃ out, Does Cursor.Within (fun fuel => Mdns.copyReads p fuel b ⟨n, false⟩ dst) (out, -1) := by
  induction h generalizing dst with
  | @root b n _ hz =>
    rw [length_encodeName_nil] at hlong
    rcases hlong with hlong | ⟨rfl, hjust⟩
    · omega
    · exact ⟨_, does_copyReads_full (by rw [hz]; rfl) (.inl rfl) (by omega)⟩
  | @label b d n z ls _ hz hp _ ih =>
    rw [length_encodeName_cons, slice_length] at hlong
    by_cases hfull : maxNameLen ≤ dst.length + byte p n + 1
    · exact ⟨_, does_copyReads_full hp (.inr hz) hfull⟩
    · have hlen := @length_append_putLabel p dst n
      have hlong' : maxNameLen < (dst ++ dnamePutLabel (slice p (n + 1) (byte p n))).length + (encodeName ls).length ∨
          d = true ∧ maxNameLen = (dst ++ dnamePutLabel (slice p (n + 1) (byte p n))).length + (encodeName ls).length :=
        hlong.imp (fun hlt => by omega) (And.imp_right (fun heq => by omega))
      obtain ⟨out, hout⟩ := ih (by omega) hlong'
      exact ⟨out, does_copyReads_label hp hz (by omega) hout⟩
  | jump _ hp _ ih =>
    obtain ⟨out, hout⟩ := ih hdst hlong
    exact ⟨out, does_copyReads_jump hp hout⟩

theorem strays_copyReads_past (n : Nat) (dst : Mem) :
    Strays Cursor.Within (fun fuel => copyReads p fuel false ⟨n, true⟩ dst) := by
  refine Strays.step (fun fuel => rfl) (Strays.bind (strays_logged (mem_singleton.mpr rfl) nofun) (fun fuel b => ?_))
  split
  · exact grows_pure _
  · split
    · exact (grows_logged _ _).bind (fun c => grows_copyReads p fuel true c dst)
    · split
      · exact grows_pure _
      · exact (grows_logged _ _).bind (fun text => grows_copyReads p fuel false _ _)

theorem Spells.copyReads_strays (h : Spells p e b n ls d z) (hd : d = true)
    (hshort : dst.length + (encodeName ls).length < maxNameLen) :
    Strays Cursor.Within (fun fuel => Mdns.copyReads p fuel b ⟨n, false⟩ dst) := by
  induction h generalizing dst with
  | @root b n _ hz =>
    subst hd
    rw [length_encodeName_nil] at hshort
    refine Strays.step (fun fuel => copyReads_label (by rw [hz]; rfl) (.inl rfl) fuel dst) ((does_read n).strays ?_)
    simp only [hz, Nat.add_zero, ge_iff_le, if_neg (Nat.not_le_of_lt hshort), over_zero hz]
    exact (does_text n 0).strays (strays_copyReads_past _ _)
  | @label b d n z ls _ hz hp _ ih =>
    rw [length_encodeName_cons, slice_length] at hshort
    have hlen := @length_append_putLabel p dst n
    refine Strays.step (fun fuel => copyReads_label hp (.inr hz) fuel dst) ((does_read n).strays ?_)
    simp only [ge_iff_le, if_neg (show ¬ maxNameLen ≤ dst.length + byte p n + 1 by omega), over_of_ne_zero hz]
    exact (does_text n _).strays (ih hd (by omega))
  | @jump b d n z ls _ hp _ ih =>
    exact Strays.step (fun fuel => copyReads_jump hp fuel b dst)
      ((does_read n).strays ((does_follow n).strays (ih hd hshort)))

theorem strays_labelCmpReads {c : Cursor} (hc : c.past = true) (label : List UInt8) :
    Strays Cursor.Within (fun fuel => labelCmpReads p fuel label c) := by
  have hbad : ¬ c.Within := fun hwithin => Bool.false_ne_true (hwithin.symm.trans hc)
  refine Strays.bind (Strays.step (fun fuel => rfl) (Strays.bind (strays_logged (mem_singleton.mpr rfl) hbad) ?_)) ?_
  · intro fuel b
    split
    · exact (grows_logged _ _).bind (fun c => grows_chaseReads p fuel c)
    · exact grows_pure c
  · intro fuel c
    exact (grows_logged _ _).bind fun _ => (grows_logged _ _).bind fun _ => grows_pure _

end copies

section splits
variable {p : Mem} {e off z : Nat} {d : Bool} {l : List UInt8} {ls labels : Labels} {info : Option ServInfo}
  {e' n : Nat}

def unscored : List UInt8 → List UInt8
  | [] => []
  | c :: text => if c = underscore then text else c :: text

def FourParts : Labels → Prop
  | _ :: _ :: proto :: _ :: _ => proto = tcpLabel ∨ proto = udpLabel
  | _ => False

theorem FourParts.parts (h : FourParts (l :: ls)) : ∃ type proto domain rest, ls = type :: proto :: domain :: rest := by
  match ls, h with
  | type :: proto :: domain :: rest, _ => exact ⟨type, proto, domain, rest, rfl⟩

def ServInfo.Tells (info : ServInfo) : Labels → Prop
  | inst :: type :: proto :: domain :: _ =>
    info.servname = inst ∧ info.servtype = unscored type ∧
      (proto = tcpLabel ∧ info.proto = .tcp ∨ proto = udpLabel ∧ info.proto = .udp) ∧ info.domain = domain
  | _ => False

/-- The name is taken apart exactly if it is short enough and has four labels with a protocol, and then into its
parts; nothing is read behind its terminating zero. -/
def SplitRight (p : Mem) (off : Nat) (labels : Labels) : Prop :=
  ∃ info log, Comes (fun fuel => (servinfoReads p fuel off).run []) (some (info, log)) ∧
    (info ≠ none ↔ (encodeName labels).length ≤ maxNameLen ∧ FourParts labels) ∧ (∀ i, info = some i → i.Tells labels) ∧
    ∀ c ∈ log, c.Within

def RootByPointer (p : Mem) (off : Nat) (labels : Labels) : Prop := ∃ e z, Spells p e false off labels true z

/-- Labels that are shorter than 63 bytes, with no underscore but a leading one of the type. -/
def PlainParts : Labels → Prop
  | inst :: type :: _ :: domain :: _ =>
    inst.length < maxLabelLen ∧ type.length < maxLabelLen ∧ domain.length < maxLabelLen ∧
      underscore ∉ unscored type ∧ underscore ∉ domain
  | _ => True

/-- Names that are taken apart as they should be: too long ones; and those that end behind a label, that are not of
one label only, unless of 63 bytes, and that have plain parts if they have four. A name to whose zero byte a pointer
leads is only given up in time if it has 255 bytes. -/
def Splittable (p : Mem) (off : Nat) (labels : Labels) : Prop :=
  maxNameLen < (encodeName labels).length ∨
    (RootByPointer p off labels ∧ (encodeName labels).length = maxNameLen ∧ ¬ FourParts labels) ∨
    (¬ RootByPointer p off labels ∧ (labels.length = 1 → ∀ l ∈ labels, l.length = maxLabelLen) ∧
      (FourParts labels → PlainParts labels))

theorem Spells.mono {b : Bool} (h : Spells p e b n ls d z) (he : e ≤ e') : Spells p e' b n ls d z := by
  induction h with
  | root hin hz => exact .root (hin.trans he) hz
  | label hin hz hp _ ih => exact .label (hin.trans he) hz hp ih
  | jump hin hp _ ih => exact .jump (hin.trans he) hp ih

theorem Expands.spells (h : Expands (.packet p) n ls) (b : Bool) : ∃ e d z, Spells p e b n ls d z := by
  induction h generalizing b with
  | @root n hz => exact ⟨n, b, n, .root le_rfl hz⟩
  | @label n ls hz hp _ ih =>
    obtain ⟨e, d, z, hs⟩ := ih false
    exact ⟨max n e, d, z, .label (Nat.le_max_left n e) hz hp (hs.mono (Nat.le_max_right n e))⟩
  | @jump n ls hr hp _ ih =>
    obtain ⟨e, d, z, hs⟩ := ih true
    exact ⟨max (n + 1) e, d, z, .jump (Nat.le_max_left _ e) hp (hs.mono (Nat.le_max_right _ e))⟩

theorem Spells.flag_unique {z' : Nat} {b d' : Bool} {ls' : Labels} (h : Spells p e b n ls d z)
    (h' : Spells p e' b n ls' d' z') : d = d' := by
  induction h generalizing ls' with
  | root _ hz =>
    cases h' with
    | root => rfl
    | label _ hz' => exact absurd hz hz'
    | jump _ hp => exact absurd hz (ne_zero_of_isPointer hp)
  | label _ hz hp _ ih =>
    cases h' with
    | root _ hz' => exact absurd hz' hz
    | label _ _ _ hrest => exact ih hrest
    | jump _ hp' =>
      rw [hp] at hp'
      cases hp'
  | jump _ hp _ ih =>
    cases h' with
    | root _ hz => exact absurd hz (ne_zero_of_isPointer hp)
    | label _ _ hp' =>
      rw [hp] at hp'
      cases hp'
    | jump _ _ hrest => exact ih hrest

theorem Spells.rootByPointer_iff (h : Spells p e false off labels d z) : RootByPointer p off labels ↔ d = true := by
  constructor
  · rintro ⟨e', z', h'⟩
    exact h.flag_unique h'
  · rintro rfl
    exact ⟨e, z, h⟩

theorem splitRight_iff (h : Does Cursor.Within (fun fuel => servinfoReads p fuel off) info) :
    SplitRight p off labels ↔ (info ≠ none ↔ (encodeName labels).length ≤ maxNameLen ∧ FourParts labels) ∧
      ∀ i, info = some i → i.Tells labels := by
  obtain ⟨log, hcomes, hlog⟩ := h.comes
  constructor
  · rintro ⟨info', log', hcomes', hwhen, htells, -⟩
    cases hcomes'.unique hcomes
    exact ⟨hwhen, htells⟩
  · rintro ⟨hwhen, htells⟩
    exact ⟨info, log, hcomes, hwhen, htells, hlog⟩

theorem splitRight_none_iff (h : Does Cursor.Within (fun fuel => servinfoReads p fuel off) none) :
    SplitRight p off labels ↔ ¬ ((encodeName labels).length ≤ maxNameLen ∧ FourParts labels) := by
  rw [splitRight_iff h]
  simp

theorem not_splitRight (h : Strays Cursor.Within (fun fuel => servinfoReads p fuel off)) :
    ¬ SplitRight p off labels := by
  rintro ⟨info, log, hcomes, -, -, hlog⟩
  exact h.not_comes hcomes hlog

section stages
variable {name out : Mem} {inst type proto domain : List UInt8} {rest : Labels}
  {typeAt protoAt domainAt : Cursor} {tcp udp : Int}

theorem does_servinfo_uncopied (h : Does Cursor.Within (fun fuel => copyReads p fuel false ⟨off, false⟩ []) (out, -1)) :
    Does Cursor.Within (fun fuel => servinfoReads p fuel off) none :=
  h.bind (does_pure none)

variable (hcopy : Does Cursor.Within (fun fuel => copyReads p fuel false ⟨off, false⟩ []) (name, 0))
include hcopy

theorem does_servinfo_noName (h : Does Cursor.Within (fun fuel => labelToCReads p fuel ⟨off, false⟩ true) none) :
    Does Cursor.Within (fun fuel => servinfoReads p fuel off) none :=
  hcopy.bind (h.bind (does_pure none))

variable (hname : Does Cursor.Within (fun fuel => labelToCReads p fuel ⟨off, false⟩ true) (some (inst, typeAt)))
include hname

theorem does_servinfo_noType (h : Does Cursor.Within (fun fuel => labelToCReads p fuel typeAt false) none) :
    Does Cursor.Within (fun fuel => servinfoReads p fuel off) none :=
  hcopy.bind (hname.bind (h.bind (does_pure none)))

variable (htype : Does Cursor.Within (fun fuel => labelToCReads p fuel typeAt false) (some (type, protoAt)))
include htype

theorem strays_servinfo (h : protoAt.past = true) : Strays Cursor.Within (fun fuel => servinfoReads p fuel off) := by
  refine hcopy.strays (hname.strays
    (htype.strays (Strays.bind (strays_labelCmpReads h tcpLabel) (fun fuel isTcp => ?_))))
  exact (grows_labelCmpReads p fuel udpLabel protoAt).bind
    (fun isUdp => grows_domainReads p fuel _ _ _ protoAt isTcp isUdp)

variable (htcp : Does Cursor.Within (fun fuel => labelCmpReads p fuel tcpLabel protoAt) tcp)
  (hudp : Does Cursor.Within (fun fuel => labelCmpReads p fuel udpLabel protoAt) udp)
include htcp hudp

theorem does_servinfo_noProto (h : tcp ≠ 0 ∧ udp ≠ 0) :
    Does Cursor.Within (fun fuel => servinfoReads p fuel off) none := by
  refine hcopy.bind (hname.bind (htype.bind (htcp.bind (hudp.bind ?_))))
  simp only [domainReads, if_pos h]
  exact does_pure none

theorem does_servinfo_noNext (hproto : ¬ (tcp ≠ 0 ∧ udp ≠ 0))
    (h : Does Cursor.Within (fun fuel => labelNextReads p fuel protoAt) none) :
    Does Cursor.Within (fun fuel => servinfoReads p fuel off) none := by
  refine hcopy.bind (hname.bind (htype.bind (htcp.bind (hudp.bind ?_))))
  simp only [domainReads, if_neg hproto]
  exact h.bind (does_pure none)

variable (hproto : ¬ (tcp ≠ 0 ∧ udp ≠ 0))
  (hnext : Does Cursor.Within (fun fuel => labelNextReads p fuel protoAt) (some domainAt))
include hproto hnext

theorem does_servinfo_noDomain (h : Does Cursor.Within (fun fuel => labelToCReads p fuel domainAt false) none) :
    Does Cursor.Within (fun fuel => servinfoReads p fuel off) none := by
  refine hcopy.bind (hname.bind (htype.bind (htcp.bind (hudp.bind ?_))))
  simp only [domainReads, if_neg hproto]
  exact hnext.bind (h.bind (does_pure none))

theorem does_servinfo {endAt : Cursor}
    (h : Does Cursor.Within (fun fuel => labelToCReads p fuel domainAt false) (some (domain, endAt))) :
    Does Cursor.Within (fun fuel => servinfoReads p fuel off)
      (some ⟨name, inst, type, if tcp = 0 then .tcp else .udp, domain⟩) := by
  refine hcopy.bind (hname.bind (htype.bind (htcp.bind (hudp.bind ?_))))
  simp only [domainReads, if_neg hproto]
  exact hnext.bind (h.bind (does_pure _))

end stages

theorem labelText_eq_unscored_iff (text : List UInt8) :
    labelText false text = unscored text ↔ underscore ∉ unscored text := by
  cases text with
  | nil => exact labelText_eq_self_iff []
  | cons c text =>
    by_cases hc : c = underscore
    · have hskip : labelText false (c :: text) = labelText false text := by
        simp only [labelText, Bool.false_eq_true, if_false]
        exact filter_cons_of_neg (by simp [hc])
      simp only [hskip, unscored, if_pos hc]
      exact labelText_eq_self_iff text
    · simp only [unscored, if_neg hc]
      exact labelText_eq_self_iff (c :: text)

/-- What `copy_servinfo` makes of a name of at most 255 bytes that ends behind a label. -/
def servinfoOf (labels : Labels) : Option ServInfo :=
  match labels with
  | [] => none
  | inst :: rest => if maxLabelLen ≤ inst.length then none else match rest with
    | [] => none
    | type :: rest => if maxLabelLen ≤ type.length then none else match rest with
      | [] => none
      | proto :: rest => if cmpBytes tcpLabel proto ≠ 0 ∧ cmpBytes udpLabel proto ≠ 0 then none else match rest with
        | [] => none
        | domain :: _ => if maxLabelLen ≤ domain.length then none else
          some ⟨encodeName labels, labelText true inst, labelText false type,
            if cmpBytes tcpLabel proto = 0 then .tcp else .udp, labelText false domain⟩

theorem Spells.servinfo (hs : Spells p e false off (l :: ls) false z)
    (hfits : (encodeName (l :: ls)).length ≤ maxNameLen)
    (hmore : ls = [] → l.length = maxLabelLen) :
    Does Cursor.Within (fun fuel => servinfoReads p fuel off) (servinfoOf (l :: ls)) := by
  have hcopy := @Spells.copyReads p e off z false false _ [] hs rfl (by simpa using hfits)
  rw [nil_append] at hcopy
  unfold servinfoOf
  by_cases hinst : maxLabelLen ≤ l.length
  · simp only [if_pos hinst]
    exact does_servinfo_noName hcopy (hs.labelToC_long hinst true)
  simp only [if_neg hinst]
  obtain ⟨typeAt, hname, hs1⟩ := hs.labelToC (Nat.lt_of_not_le hinst) true
  cases ls with
  | nil => exact absurd (Nat.le_of_eq (hmore rfl).symm) hinst
  | cons type ls =>
    by_cases htype : maxLabelLen ≤ type.length
    · simp only [if_pos htype]
      exact does_servinfo_noType hcopy hname (hs1.labelToC_long htype false)
    simp only [if_neg htype]
    obtain ⟨protoAt, hservtype, hs2⟩ := hs1.labelToC (Nat.lt_of_not_le htype) false
    cases ls with
    | nil =>
      exact does_servinfo_noProto hcopy hname hservtype (hs2.labelCmp_last tcpLabel)
        (hs2.labelCmp_last udpLabel) (by decide)
    | cons proto ls =>
      have htcp := hs2.labelCmp tcpLabel
      have hudp := hs2.labelCmp udpLabel
      by_cases hproto : cmpBytes tcpLabel proto ≠ 0 ∧ cmpBytes udpLabel proto ≠ 0
      · simp only [if_pos hproto]
        exact does_servinfo_noProto hcopy hname hservtype htcp hudp hproto
      simp only [if_neg hproto]
      cases ls with
      | nil => exact does_servinfo_noNext hcopy hname hservtype htcp hudp hproto hs2.labelNext_last
      | cons domain rest =>
        obtain ⟨domainAt, hnext, hs3⟩ := hs2.labelNext
        by_cases hdomain : maxLabelLen ≤ domain.length
        · simp only [if_pos hdomain]
          exact does_servinfo_noDomain hcopy hname hservtype htcp hudp hproto hnext (hs3.labelToC_long hdomain false)
        simp only [if_neg hdomain]
        obtain ⟨endAt, hlast, -⟩ := hs3.labelToC (Nat.lt_of_not_le hdomain) false
        exact does_servinfo hcopy hname hservtype htcp hudp hproto hnext hlast

theorem servinfoOf_eq_none (h : ¬ FourParts labels) : servinfoOf labels = none := by
  unfold servinfoOf
  match labels with
  | [] => rfl
  | [_] => exact ite_self _
  | [_, _] => simp
  | [_, _, _] => simp
  | inst :: type :: proto :: domain :: rest =>
    have hproto : cmpBytes tcpLabel proto ≠ 0 ∧ cmpBytes udpLabel proto ≠ 0 :=
      ⟨fun heq => h (.inl (cmpBytes_eq_zero.mp heq).symm), fun heq => h (.inr (cmpBytes_eq_zero.mp heq).symm)⟩
    simp only [if_pos hproto, ite_self]

theorem servinfoOf_tells {inst type proto domain : List UInt8} {rest : Labels}
    (h : proto = tcpLabel ∨ proto = udpLabel) :
    (servinfoOf (inst :: type :: proto :: domain :: rest) ≠ none ∧
      ∀ i, servinfoOf (inst :: type :: proto :: domain :: rest) = some i →
        i.Tells (inst :: type :: proto :: domain :: rest)) ↔
        PlainParts (inst :: type :: proto :: domain :: rest) := by
  have hproto : ¬ (cmpBytes tcpLabel proto ≠ 0 ∧ cmpBytes udpLabel proto ≠ 0) := by
    rintro ⟨hnot, hnot'⟩
    rcases h with rfl | rfl
    · exact hnot (cmpBytes_self _)
    · exact hnot' (cmpBytes_self _)
  have hwhich : proto = tcpLabel ∧ (if cmpBytes tcpLabel proto = 0 then Proto.tcp else .udp) = .tcp ∨
      proto = udpLabel ∧ (if cmpBytes tcpLabel proto = 0 then Proto.tcp else .udp) = .udp := by
    rcases h with rfl | rfl
    · exact .inl ⟨rfl, rfl⟩
    · exact .inr ⟨rfl, rfl⟩
  unfold servinfoOf PlainParts
  by_cases hinst : maxLabelLen ≤ inst.length
  · simp [hinst, Nat.not_lt.mpr hinst]
  by_cases htype : maxLabelLen ≤ type.length
  · simp [htype, Nat.not_lt.mpr htype]
  by_cases hdomain : maxLabelLen ≤ domain.length
  · simp [hdomain, Nat.not_lt.mpr hdomain]
  simp only [if_neg hinst, if_neg htype, if_neg hproto, if_neg hdomain]
  constructor
  · rintro ⟨-, htells⟩
    obtain ⟨-, hunscored, -, hself⟩ := htells _ rfl
    exact ⟨Nat.lt_of_not_le hinst, Nat.lt_of_not_le htype, Nat.lt_of_not_le hdomain,
      (labelText_eq_unscored_iff type).mp hunscored, (labelText_eq_self_iff domain).mp hself⟩
  · rintro ⟨-, -, -, hunscored, hself⟩
    refine ⟨nofun, fun i hi => ?_⟩
    cases hi
    exact ⟨rfl, (labelText_eq_unscored_iff type).mpr hunscored, hwhich, (labelText_eq_self_iff domain).mpr hself⟩

theorem splitRight_behindLabel (hs : Spells p e false off (l :: ls) false z)
    (hfits : (encodeName (l :: ls)).length ≤ maxNameLen) :
    SplitRight p off (l :: ls) ↔ (ls = [] → l.length = maxLabelLen) ∧ (FourParts (l :: ls) → PlainParts (l :: ls)) := by
  by_cases hmore : ls = [] → l.length = maxLabelLen
  · rw [splitRight_iff (hs.servinfo hfits hmore), and_iff_right hmore]
    by_cases hfour : FourParts (l :: ls)
    · obtain ⟨type, proto, domain, rest, rfl⟩ := hfour.parts
      simp only [hfits, hfour, true_and, iff_true, forall_const]
      exact servinfoOf_tells hfour
    · rw [servinfoOf_eq_none hfour]
      exact iff_of_true ⟨iff_of_false (fun h => h rfl) (fun h => hfour h.2), nofun⟩ (fun h => absurd h hfour)
  · -- a single label, behind which the protocol is looked for
    obtain ⟨rfl, hl⟩ := Classical.not_imp.mp hmore
    have hmax : maxLabelLen = 63 := rfl
    have hl64 := (hs.expands.length_pos l (mem_cons_self ..)).2
    have hcopy := @Spells.copyReads p e off z false false _ [] hs rfl (by simpa using hfits)
    obtain ⟨typeAt, hname, hs1⟩ := hs.labelToC (by omega) true
    obtain ⟨protoAt, htype⟩ := hs1.labelToC_last false
    exact iff_of_false (not_splitRight (strays_servinfo hcopy hname htype rfl)) (fun h => hmore h.1)

/-- Taking names apart goes right exactly for these names. -/
theorem servinfo_splitRight_iff (h : Expands (.packet p) off (l :: ls)) :
    SplitRight p off (l :: ls) ↔ Splittable p off (l :: ls) := by
  obtain ⟨e, d, z, hs⟩ := h.spells false
  have hpointer := hs.rootByPointer_iff
  unfold Splittable
  by_cases hlong : maxNameLen < (encodeName (l :: ls)).length
  · obtain ⟨out, hout⟩ := @Spells.copyReads_long p e off z false d _ [] hs (by decide) (.inl (by simpa using hlong))
    refine iff_of_true ((splitRight_none_iff (does_servinfo_uncopied hout)).mpr (fun hboth => ?_)) (.inl hlong)
    exact Nat.not_le_of_lt hlong hboth.1
  have hfits := Nat.le_of_not_lt hlong
  cases d with
  | true =>
    have hroot := hpointer.mpr rfl
    by_cases hjust : (encodeName (l :: ls)).length = maxNameLen
    · obtain ⟨out, hout⟩ :=
        @Spells.copyReads_long p e off z false true _ [] hs (by decide) (.inr ⟨rfl, by simpa using hjust.symm⟩)
      rw [splitRight_none_iff (does_servinfo_uncopied hout)]
      simp only [hroot, hjust, le_refl, lt_irrefl, true_and, false_or, not_true_eq_false, false_and, or_false]
    · have hstrays := @Spells.copyReads_strays p e off z false true _ [] hs rfl
        (by simpa using Nat.lt_of_le_of_ne hfits hjust)
      refine iff_of_false (not_splitRight (hstrays.bind (fun fuel r => grows_afterCopy p fuel off r))) ?_
      simp only [hlong, hroot, hjust, false_and, and_false, not_true_eq_false, or_self, not_false_eq_true]
  | false =>
    have hroot : ¬ RootByPointer p off (l :: ls) := fun hroot => absurd (hpointer.mp hroot) nofun
    simp only [hlong, hroot, false_and, false_or, not_false_eq_true, true_and]
    rw [splitRight_behindLabel hs hfits]
    refine and_congr_left' ?_
    cases ls with
    | nil => simp
    | cons _ _ => simp

theorem spells_encodeName (hls : ∀ l ∈ ls, 0 < l.length ∧ l.length < 64) (hat : At p n (encodeName ls)) :
    ∃ z, Spells p p.length false n ls false z := by
  induction ls generalizing n with
  | nil => exact ⟨n, .root (Nat.le_of_lt hat.length_le) hat.byte⟩
  | cons l ls ih =>
    obtain ⟨hl, hls⟩ := forall_mem_cons.mp hls
    rw [encodeName_cons] at hat
    have hbyte : byte p n = l.length := hat.take.byte.trans (toNat_ofNat_lt (by omega))
    have htext : slice p (n + 1) (byte p n) = l := by
      rw [hbyte]
      exact (@At.drop p n [UInt8.ofNat l.length] l hat.take).slice
    obtain ⟨z, hrest⟩ := ih hls hat.drop
    have hin := hat.length_le
    have hnext : n + (dnamePutLabel l).length = n + byte p n + 1 :=
      by rw [hbyte, dnamePutLabel, length_cons, Nat.add_assoc]
    rw [hnext] at hrest
    have hlabel := Spells.label (b := false) (by rw [length_append] at hin; omega) (by omega)
      (decide_eq_false (by omega)) hrest
    rw [htext] at hlabel
    exact ⟨z, hlabel⟩

def nameAlone (labels : Labels) : Mem := replicate 12 0 ++ encodeName labels

theorem spells_nameAlone (hls : ∀ l ∈ labels, 0 < l.length ∧ l.length < 64) :
    ∃ z, Spells (nameAlone labels) (nameAlone labels).length false 12 labels false z :=
  spells_encodeName hls ⟨replicate 12 0, [], by simp [nameAlone], rfl⟩

/-- `a._http._tcp.local`. -/
def plainInstance : Labels := [[97], [95, 104, 116, 116, 112], tcpLabel, [108, 111, 99, 97, 108]]

theorem servinfo_splitRight_http : SplitRight (nameAlone plainInstance) 12 plainInstance := by
  obtain ⟨z, hs⟩ := @spells_nameAlone plainInstance (by decide)
  have hroot : ¬ RootByPointer (nameAlone plainInstance) 12 plainInstance :=
    fun hroot => absurd (hs.rootByPointer_iff.mp hroot) nofun
  exact (servinfo_splitRight_iff hs.expands).mpr (.inr (.inr ⟨hroot, nofun, fun _ => by unfold PlainParts; decide⟩))

/-- `a._b_c._tcp.local`. -/
def scoredInstance : Labels := [[97], [95, 98, 95, 99], tcpLabel, [108, 111, 99, 97, 108]]

def longInstance : Labels := [replicate 63 97, [95, 98], tcpLabel, [108, 111, 99, 97, 108]]

/-- The second underscore of a type is lost, a label of 63 bytes makes the name fail, and behind a name of one label
the packet is read on. -/
theorem servinfo_splits_wrong : ¬ SplitRight (nameAlone scoredInstance) 12 scoredInstance ∧
    ¬ SplitRight (nameAlone longInstance) 12 longInstance ∧ ¬ SplitRight (nameAlone [[97]]) 12 [[97]] := by
  refine ⟨?_, ?_, ?_⟩
  · obtain ⟨z, hs⟩ := @spells_nameAlone scoredInstance (by decide)
    unfold scoredInstance at hs ⊢
    rw [splitRight_behindLabel hs (by decide)]
    exact fun h => absurd (h.2 (.inl rfl)) (by unfold PlainParts; decide)
  · obtain ⟨z, hs⟩ := @spells_nameAlone longInstance (by decide)
    unfold longInstance at hs ⊢
    rw [splitRight_behindLabel hs (by decide)]
    exact fun h => absurd (h.2 (.inl rfl)) (by unfold PlainParts; decide)
  · obtain ⟨z, hs⟩ := @spells_nameAlone [[97]] (by decide)
    rw [splitRight_behindLabel hs (by decide)]
    exact fun h => absurd (h.1 rfl) (by decide)

end splits

end Mdns
