import Mdns.Dname.Compare
import Mdns.Parse.Safety
import Mdns.Wire

/-!
# Reading what was written

The parser finds the entries that were added. A pointer has to lead to a name that is not the root,
since the parser does not look for the zero byte right behind a jump.
-/
namespace Mdns
open Lib List

section names
variable {p : Mem} {e n c : Nat} {b : Bool} {l : List UInt8} {ls : Labels} {off : Nat}

/-- `dname_overrun` accepts the name from here on; the flag says whether a pointer led here. -/
def Accepted (p : Mem) (e : Nat) (b : Bool) (n : Nat) : Prop :=
  ∃ k, StopsAt (walkStep p) (Verdict p e) (b, n) k ∧ (hop p)^[k] n ≤ e

theorem accepted_zero (hz : byte p n = 0) (hn : n ≤ e) : Accepted p e false n :=
  ⟨0, ⟨.inr ⟨rfl, hz⟩, fun i hi => absurd hi (Nat.not_lt_zero i)⟩, hn⟩

theorem Accepted.step (hz : byte p n ≠ 0) (hn : n ≤ e) (h : Accepted p e (isPointer (byte p n)) (hop p n)) :
    Accepted p e b n := by
  obtain ⟨k, ⟨hstop, hbefore⟩, hle⟩ := h
  refine ⟨k + 1, ⟨hstop, fun i hi => ?_⟩, hle⟩
  cases i with
  | zero =>
    rintro (hlt | ⟨-, hzero⟩)
    · exact absurd hlt (Nat.not_lt_of_le hn)
    · exact hz hzero
  | succ i => exact hbefore i (by omega)

theorem byte_putLabel (hl : 0 < l.length ∧ l.length < 64) (h : At p n (dnamePutLabel l)) :
    byte p n = l.length ∧ isPointer (byte p n) = false := by
  have hbyte : byte p n = l.length := by rw [h.byte, toNat_ofNat_lt (by omega)]
  refine ⟨hbyte, ?_⟩
  simp only [isPointer, hbyte, decide_eq_false_iff_not]
  omega

theorem accepted_label (hl : 0 < l.length ∧ l.length < 64) (h : At p n (dnamePutLabel l)) (hn : n ≤ e)
    (hrest : Accepted p e false (n + l.length + 1)) : Accepted p e b n := by
  obtain ⟨hbyte, hp⟩ := byte_putLabel hl h
  have hhop : hop p n = n + l.length + 1 := by
    unfold hop
    rw [if_neg (by simp [hp]), hbyte]
  refine Accepted.step (by omega) hn ?_
  rw [hp, hhop]
  exact hrest

theorem expands_label (hl : 0 < l.length ∧ l.length < 64) (h : At p n (dnamePutLabel l))
    (hrest : Expands (.packet p) (n + l.length + 1) ls) : Expands (.packet p) n (l :: ls) := by
  obtain ⟨hbyte, hp⟩ := byte_putLabel hl h
  have htext : slice p (n + 1) (byte p n) = l := by
    have hat : At p (n + 1) l := @At.drop p n [UInt8.ofNat l.length] l h
    rw [hbyte, hat.slice]
  have hexp := @Expands.label (.packet p) n ls (by show byte p n ≠ 0; omega) hp
    (by show Expands _ (n + byte p n + 1) ls; rwa [hbyte])
  rwa [show slice (Src.packet p).mem (n + 1) (byte (Src.packet p).mem n) = l from htext] at hexp

theorem dnameCopy_comes (hls : ∀ l ∈ ls, 0 < l.length ∧ l.length < 64) (h : At p n (encodeName ls))
    (hfits : (encodeName ls).length ≤ maxNameLen) :
    Comes (fun fuel => dnameCopy fuel p n) (some (encodeName ls, 0)) := by
  have hloop : ∀ dst : Mem, dst.length + (encodeName ls).length ≤ maxNameLen →
      Comes (fun fuel => loop (copyBody p) fuel (false, n, dst)) (some (dst ++ encodeName ls, 0)) := by
    clear hfits
    induction ls generalizing n with
    | nil =>
      intro dst _
      have hz : byte p n = 0 := h.byte
      exact (comes_loop_break (by simp [copyBody, hz, encodeName])).mpr rfl
    | cons l ls ih =>
      intro dst hroom
      obtain ⟨hl, hls⟩ := forall_mem_cons.mp hls
      rw [encodeName_cons] at h
      obtain ⟨hbyte, hp⟩ := byte_putLabel hl h.take
      have hlabel : slice p n (l.length + 1) = dnamePutLabel l := h.take.slice
      have hbody : copyBody p (false, n, dst) = .inl (false, n + l.length + 1, dst ++ dnamePutLabel l) := by
        rw [length_encodeName_cons] at hroom
        have hlen : 0 < (encodeName ls).length := by
          cases ls with
          | nil => decide
          | cons l' ls => rw [length_encodeName_cons]; omega
        rw [hbyte] at hp
        simp only [copyBody, hbyte, hlabel, hp, Bool.not_false, Bool.true_and, decide_eq_true_eq, Bool.false_eq_true]
        rw [if_neg (by omega), if_neg not_false, if_neg (by omega)]
      have hnext : At p (n + l.length + 1) (encodeName ls) := h.drop
      have hrest := ih hls hnext (dst ++ dnamePutLabel l) (by
        rw [length_encodeName_cons] at hroom
        rw [length_append]
        show _ + (l.length + 1) + _ ≤ _
        omega)
      rw [encodeName_cons, ← append_assoc]
      exact (comes_loop_continue hbody).mpr hrest
  exact hloop [] (by simpa using hfits)

theorem accepted_encodeName (hls : ∀ l ∈ ls, 0 < l.length ∧ l.length < 64) (h : At p n (encodeName ls))
    (hle : n + (encodeName ls).length ≤ e + 1) (hroot : ls ≠ [] ∨ b = false) : Accepted p e b n := by
  induction ls generalizing n b with
  | nil =>
    obtain rfl := hroot.resolve_left (fun hne => hne rfl)
    exact accepted_zero h.byte (by simp [encodeName] at hle; omega)
  | cons l ls ih =>
    rw [encodeName_cons] at h hle
    have hlen : (dnamePutLabel l).length = l.length + 1 := rfl
    rw [length_append, hlen] at hle
    have hdrop := h.drop
    rw [hlen, ← Nat.add_assoc] at hdrop
    refine accepted_label (hls l (.head _)) h.take (by omega) ?_
    exact ih (fun l' hl' => hls l' (.tail _ hl')) hdrop (by omega) (.inr rfl)

theorem pointerBytes_eq (hoff : off < 16384) : pointerBytes off = setUint16 (49152 + off) := by
  have h := @Nat.two_pow_add_eq_or_of_lt 14 off hoff 3
  rw [pointerBytes, show 0xC000 = 2 ^ 14 * 3 from rfl, ← h]

theorem pointer_at (hoff : off < 16384) (h : At p n (pointerBytes off)) :
    isPointer (byte p n) = true ∧ pointer p n = off := by
  rw [pointerBytes_eq hoff] at h
  have h0 := h.byte
  have h1 := (@At.drop p n [UInt8.ofNat ((49152 + off) / 256)] [UInt8.ofNat (49152 + off)] h).byte
  simp only [length_singleton, UInt8.toNat_ofNat'] at h0 h1
  unfold pointer
  rw [isPointer_iff, h0, h1]
  omega

structure Target (p : Mem) (e off : Nat) (ls : Labels) : Prop where
  written : At p off (encodeName ls)
  sizes : ∀ l ∈ ls, 0 < l.length ∧ l.length < 64
  notRoot : ls ≠ []
  inside : off + (encodeName ls).length ≤ e + 1
  low : off < 16384

/-- A name field with so many own bytes that the parser accepts, and its labels. -/
structure NameField (p : Mem) (e c len : Nat) (ls : Labels) : Prop where
  own : OwnBytes p c (c + len)
  accepted : Accepted p e false c
  expands : Expands (.packet p) c ls

theorem nameField_encodeName (hls : ∀ l ∈ ls, 0 < l.length ∧ l.length < 64) (h : At p n (encodeName ls))
    (hle : n + (encodeName ls).length ≤ e + 1) : NameField p e n (encodeName ls).length ls where
  own := ownBytes_encodeName hls h
  accepted := accepted_encodeName hls h hle (.inr rfl)
  expands := expands_encodeName hls h

theorem Target.accepted (ht : Target p e off ls) (h : At p n (pointerBytes off)) (hn : n ≤ e) : Accepted p e b n := by
  obtain ⟨hp, hoff⟩ := pointer_at ht.low h
  refine Accepted.step (ne_zero_of_isPointer hp) hn ?_
  have hjump : hop p n = off := by
    unfold hop
    rw [if_pos hp, hoff]
  rw [hjump]
  exact accepted_encodeName ht.sizes ht.written ht.inside (.inl ht.notRoot)

theorem Target.expands (ht : Target p e off ls) (h : At p n (pointerBytes off)) : Expands (.packet p) n ls := by
  obtain ⟨hp, hoff⟩ := pointer_at ht.low h
  refine .jump rfl hp ?_
  show Expands (.packet p) (pointer p n) ls
  rw [hoff]
  exact expands_encodeName ht.sizes ht.written

theorem nameField_pointer (ht : Target p e off ls) (h : At p n (pointerBytes off)) (hn : n ≤ e) :
    NameField p e n 2 ls where
  own := ownBytes_pointer (pointer_at ht.low h).1
  accepted := ht.accepted h hn
  expands := ht.expands h

theorem nameField_label {off : Nat} (hl : 0 < l.length ∧ l.length < 64) (ht : Target p e off ls)
    (h : At p n (dnamePutLabel l ++ pointerBytes off)) (hle : n + l.length + 1 ≤ e) :
    NameField p e n (l.length + 3) (l :: ls) := by
  have hptr : At p (n + l.length + 1) (pointerBytes off) := by
    have hdrop := h.drop
    rwa [show (dnamePutLabel l).length = l.length + 1 from rfl, ← Nat.add_assoc] at hdrop
  refine ⟨?_, accepted_label hl h.take (by omega) (ht.accepted hptr hle), expands_label hl h.take (ht.expands hptr)⟩
  exact ownBytes_putLabel hl h.take (ownBytes_pointer (pointer_at ht.low hptr).1)

end names

section scans
variable {p : Mem} {e c : Nat} {m : Message} {ls : Labels} {len : Nat}

theorem scanName_eq (hn : NameField m.data m.mend m.cur len ls) (hlen : len ≤ maxNameLen)
    (hle : m.cur + len ≤ m.mend + 1) :
    scanName m = ⟨[m.cur], some { m with cur := m.cur + len }⟩ := by
  unfold scanName
  rw [nameEnd_eq hn.own, if_pos ⟨by omega, hle⟩]
  rfl

def Asked.at (q : Asked) (c : Nat) : Question := { qname := c, qtype := q.type, qclass := q.cls }

structure Asked.Bounded (q : Asked) : Prop where
  type : q.type < 65536
  cls : q.cls < 65536

theorem scanQuestion_eq {q : Asked} (hq : q.Bounded) (hat : At m.data m.cur q.bytes)
    (hle : m.cur + q.bytes.length ≤ m.mend + 1) :
    scanQuestion m = ⟨[m.cur], some (q.at m.cur, { m with cur := m.cur + q.bytes.length })⟩ ∧
      NameField m.data m.mend m.cur (encodeName q.name.labels).length q.name.labels := by
  have hlen : q.bytes.length = (encodeName q.name.labels).length + 4 := by simp [Asked.bytes, setUint16]
  rw [Asked.bytes] at hat
  have hname := nameField_encodeName q.name.sizes hat.take.take (show _ ≤ m.mend + 1 by omega)
  have htype : getUint16 m.data (m.cur + (encodeName q.name.labels).length) = q.type :=
    getUint16_at hat.take.drop hq.type
  have hcls : getUint16 m.data (m.cur + (encodeName q.name.labels).length + 2) = q.cls := by
    have hdrop := hat.drop
    rw [length_append, ← Nat.add_assoc] at hdrop
    exact getUint16_at hdrop hq.cls
  refine ⟨?_, hname⟩
  unfold scanQuestion
  rw [scanName_eq hname q.name.fits (by omega), hlen]
  simp only [Scan.andThen, Scan.need, htype, hcls]
  rw [if_pos (by omega)]
  rfl

end scans

section records
variable {p : Mem} {e n : Nat} {m : Message} {refs : Nat → Labels → Prop} {x : Entry Owner}

/-- The labels of a record's name. `refs` says which names stand at which offsets. -/
def Owner.Means (refs : Nat → Labels → Prop) : Owner → Labels → Prop
  | .name n, ls => ls = n.labels
  | .label l off, ls => ∃ rest, refs off rest ∧ ls = l.1 :: rest
  | .offset off, ls => refs off ls

def Rdata.Means (refs : Nat → Labels → Prop) : Rdata → Nat → Labels → Prop
  | .uint32 _, _, _ => False
  | .name n, skip, ls => skip = 0 ∧ ls = n.labels
  | .label l off, skip, ls => skip = 0 ∧ ∃ rest, refs off rest ∧ ls = l.1 :: rest
  | .txt _ _, _, _ => False
  | .srv _ _ target, skip, ls => skip = 6 ∧ ls = target.labels

/-- Data that may stand in a record of the type: four bytes in an A record, and a name or a zero byte
first where the parser looks for a name. -/
def Rdata.Fits (refs : Nat → Labels → Prop) (type : Nat) : Rdata → Prop
  | .uint32 i => i < 4294967296 ∧ type ≠ tPtr ∧ type ≠ tSrv
  | .name _ => type ≠ tA
  | .label _ off => type ≠ tA ∧ ∃ ls, refs off ls
  | .txt _ _ => type ≠ tA ∧ type ≠ tPtr ∧ type ≠ tSrv
  | .srv weight port _ => type ≠ tA ∧ weight < 65536 ∧ port < 65536

structure Entry.Valid (refs : Nat → Labels → Prop) (x : Entry Owner) : Prop where
  owner : ∃ ls, x.owner.Means refs ls
  type : x.type < 65536
  cls : x.cls < 65536
  ttl : x.ttl < uint32Max
  data : x.data.Fits refs x.type

def Entry.at (x : Entry Owner) (c : Nat) : Resource :=
  { name := c, type := x.type, cls := x.cls, ttl := x.ttl, rdlength := x.data.bytes.length,
    rdata := c + x.owner.bytes.length + 10 }

structure Recorded (p : Mem) (refs : Nat → Labels → Prop) (x : Entry Owner) (r : Resource) : Prop where
  name : ∀ ls, x.owner.Means refs ls → Expands (.packet p) r.name ls
  type : r.type = x.type
  cls : r.cls = x.cls
  ttl : r.ttl = x.ttl
  rdlength : r.rdlength = x.data.bytes.length
  rdata : At p r.rdata x.data.bytes
  target : ∀ skip ls, x.data.Means refs skip ls → Expands (.packet p) (r.rdata + skip) ls

theorem Owner.nameField (hrefs : ∀ off ls, refs off ls → Target p e off ls) {o : Owner} {ls : Labels}
    (ho : o.Means refs ls)
    (hat : At p n o.bytes) (hle : n + o.bytes.length ≤ e + 1) : NameField p e n o.bytes.length ls := by
  cases o with
  | name w =>
    obtain rfl := ho
    exact nameField_encodeName w.sizes hat hle
  | label l off =>
    obtain ⟨rest, href, rfl⟩ := ho
    have hlen : (Owner.label l off).bytes.length = l.1.length + 3 := by
      simp [Owner.bytes, dnamePutLabel, pointerBytes, setUint16]
    rw [hlen] at hle ⊢
    exact nameField_label l.2 (hrefs off rest href) hat (by omega)
  | offset off =>
    have hlen : (Owner.offset off).bytes.length = 2 := rfl
    rw [hlen] at hle ⊢
    exact nameField_pointer (hrefs off ls ho) hat (by omega)

theorem Owner.length_le (o : Owner) : o.bytes.length ≤ maxNameLen := by
  cases o with
  | name w => exact w.fits
  | label l off =>
    have h := l.2
    simp only [Owner.bytes, dnamePutLabel, pointerBytes, setUint16, length_append, length_cons, length_nil,
      maxNameLen]
    omega
  | offset off => exact show 2 ≤ maxNameLen by decide

theorem Rdata.names (hrefs : ∀ off ls, refs off ls → Target p e off ls) {d : Rdata} {type : Nat} (hd : d.Fits refs type)
    (hat : At p n d.bytes) (hle : n + d.bytes.length ≤ e + 1) :
    (type = tSrv ∨ type = tPtr → Accepted p e false n) ∧ ∀ skip ls, d.Means refs skip ls →
      Expands (.packet p) (n + skip) ls := by
  cases d with
  | uint32 i => exact ⟨fun h => absurd h (not_or.mpr ⟨hd.2.2, hd.2.1⟩), fun _ _ h => h.elim⟩
  | name w =>
    have hfield := nameField_encodeName w.sizes hat hle
    refine ⟨fun _ => hfield.accepted, ?_⟩
    rintro skip ls ⟨rfl, rfl⟩
    exact hfield.expands
  | label l off =>
    have hlen : (Rdata.label l off).bytes.length = l.1.length + 3 := by
      simp [Rdata.bytes, dnamePutLabel, pointerBytes, setUint16]
    have hfield := fun ls href => @nameField_label p e n l.1 ls off l.2 (hrefs off ls href) hat (by omega)
    obtain ⟨-, ls, href⟩ := hd
    refine ⟨fun _ => (hfield ls href).accepted, ?_⟩
    rintro skip ls ⟨rfl, rest, href, rfl⟩
    exact (hfield rest href).expands
  | txt text len => exact ⟨fun h => absurd h (not_or.mpr ⟨hd.2.2, hd.2.1⟩), fun _ _ h => h.elim⟩
  | srv weight port target =>
    have hlen : (Rdata.srv weight port target).bytes.length = (encodeName target.labels).length + 6 := by
      simp [Rdata.bytes, setUint16]
    refine ⟨fun _ => accepted_zero hat.byte (by omega), ?_⟩
    rintro skip ls ⟨rfl, rfl⟩
    have hdrop := hat.drop
    exact expands_encodeName target.sizes hdrop

theorem recordAt_eq (hx : x.Valid refs) (hat : At p n x.bytes) (hsize : x.data.bytes.length < 65536) :
    recordAt p n (n + x.owner.bytes.length) = x.at n := by
  rw [Entry.bytes, fixedBytes] at hat
  have httl : x.ttl < 4294967296 := Nat.lt_trans hx.ttl (by decide)
  have h0 : getUint16 p (n + x.owner.bytes.length) = x.type := getUint16_at hat.take.take.drop.take.take hx.type
  have h1 : getUint16 p (n + x.owner.bytes.length + 2) = x.cls := getUint16_at hat.take.take.drop.take.drop hx.cls
  have h2 : getUint32 p (n + x.owner.bytes.length + 4) = x.ttl := getUint32_at hat.take.take.drop.drop httl
  have h3 : getUint16 p (n + x.owner.bytes.length + 8) = x.data.bytes.length := by
    have hdrop := hat.take.drop
    rw [length_append, ← Nat.add_assoc] at hdrop
    exact getUint16_at hdrop hsize
  rw [recordAt, h0, h1, h2, h3]
  rfl

theorem Entry.length_bytes (x : Entry Owner) : x.bytes.length = x.owner.bytes.length + 10 + x.data.bytes.length := by
  simp only [Entry.bytes, fixedBytes, setUint16, setUint32, length_append, length_cons, length_nil]

theorem Entry.data_at (hat : At p n x.bytes) : At p (n + x.owner.bytes.length + 10) x.data.bytes := by
  have hdrop := @At.drop p n (x.owner.bytes ++ fixedBytes x.type x.cls x.ttl ++
    setUint16 x.data.bytes.length) x.data.bytes hat
  have hlen : (x.owner.bytes ++ fixedBytes x.type x.cls x.ttl ++ setUint16 x.data.bytes.length).length =
      x.owner.bytes.length + 10 := by
    simp [fixedBytes, setUint16, setUint32]
  rwa [hlen, ← Nat.add_assoc] at hdrop

theorem scanRdata_eq (hx : x.Valid refs) (c : Nat) :
    scanRdata (x.at c) = ⟨if x.type = tSrv ∨ x.type = tPtr then [(x.at c).rdata] else [], some ()⟩ := by
  unfold scanRdata
  by_cases hA : x.type = tA
  · have hfour : x.data.bytes.length = 4 := by
      have hd := hx.data
      rw [hA] at hd
      cases hdata : x.data with
      | uint32 i => rfl
      | name w =>
        rw [hdata] at hd
        exact absurd rfl hd
      | label l off =>
        rw [hdata] at hd
        exact absurd rfl hd.1
      | txt text len =>
        rw [hdata] at hd
        exact absurd rfl hd.1
      | srv weight port target =>
        rw [hdata] at hd
        exact absurd rfl hd.1
    have hnot : ¬ (x.type = tSrv ∨ x.type = tPtr) := by rw [hA]; decide
    rw [if_pos (show (x.at c).type = tA from hA), if_neg hnot, Scan.need,
      if_pos (show (x.at c).rdlength = 4 from hfour)]
    rfl
  · rw [if_neg (show ¬ (x.at c).type = tA from hA)]
    by_cases hname : x.type = tSrv ∨ x.type = tPtr
    · rw [if_pos (show (x.at c).type = tSrv ∨ (x.at c).type = tPtr from hname), if_pos hname]
      rfl
    · rw [if_neg (show ¬ ((x.at c).type = tSrv ∨ (x.at c).type = tPtr) from hname), if_neg hname]
      rfl

theorem scanResource_eq {x : Entry Owner} (hx : x.Valid refs)
    (hrefs : ∀ off ls, refs off ls → Target m.data m.mend off ls)
    (hat : At m.data m.cur x.bytes) (hle : m.cur + x.bytes.length ≤ m.mend + 1) (hmend : m.mend < 65536) :
    (scanResource m).result = some (x.at m.cur, sortRecord { m with cur := m.cur + x.bytes.length } (x.at m.cur)) ∧
      (∀ n ∈ (scanResource m).fields, Ends m.data m.mend n) ∧ Recorded m.data refs x (x.at m.cur) := by
  have hlen := x.length_bytes
  have hbytes := hat
  rw [Entry.bytes] at hbytes
  obtain ⟨ls, hls⟩ := hx.owner
  have hname := Owner.nameField hrefs hls hbytes.take.take.take (by omega)
  have hdata := Entry.data_at hat
  obtain ⟨haccept, htarget⟩ := Rdata.names hrefs hx.data hdata (by omega)
  have hrec := recordAt_eq hx hat (by omega)
  have hscan : scanResource m = ⟨[m.cur] ++ (if x.type = tSrv ∨ x.type = tPtr then [(x.at m.cur).rdata] else []),
      some (x.at m.cur, sortRecord { m with cur := m.cur + x.bytes.length } (x.at m.cur))⟩ := by
    unfold scanResource
    rw [scanName_eq hname x.owner.length_le (by omega)]
    simp only [Scan.andThen, hrec, Scan.need]
    rw [if_pos (by omega),
      if_pos (show _ + (x.at m.cur).rdlength ≤ _ from by show _ + x.data.bytes.length ≤ _; omega), scanRdata_eq hx]
    simp only [Scan.done, append_nil]
    rw [hlen, show (x.at m.cur).rdlength = x.data.bytes.length from rfl]
    simp only [Nat.add_assoc]
  rw [hscan]
  refine ⟨rfl, fun n hn => ?_, ?_⟩
  · rcases mem_append.mp hn with hn | hn
    · rw [mem_singleton.mp hn]
      exact hname.accepted
    · split at hn
      · next htype =>
        rw [mem_singleton.mp hn]
        exact haccept htype
      · cases hn
  · refine ⟨fun ls' hls' => ?_, rfl, rfl, rfl, rfl, hdata, htarget⟩
    exact (Owner.nameField hrefs hls' hbytes.take.take.take (by omega)).expands

end records

section sections
variable {p : Mem} {e : Nat} {m : Message} {α β : Type}

def placed (bytes : α → Mem) : List α → Nat → List (α × Nat)
  | [], _ => []
  | x :: xs, c => (x, c) :: placed bytes xs (c + (bytes x).length)

theorem foldl_cur {next : Message → β → Message}
    (hnext : ∀ m y c, next { m with cur := c } y = { next m y with cur := c })
    (ys : List β) (m : Message) (c : Nat) : ys.foldl next { m with cur := c } = { ys.foldl next m with cur := c } := by
  induction ys generalizing m with
  | nil => rfl
  | cons y ys ih => rw [foldl_cons, hnext, ih, foldl_cons]

theorem scanMany_eq {scan : Message → Scan (β × Message)} {bytes : α → Mem} {at' : α → Nat → β}
    {next : Message → β → Message}
    {xs : List α} (hnext : ∀ m y c, next { m with cur := c } y = { next m y with cur := c })
    (hkept : ∀ m y, (next m y).data = m.data ∧ (next m y).mend = m.mend)
    (hscan : ∀ x ∈ xs, ∀ m : Message, m.data = p → m.mend = e → At p m.cur (bytes x) →
      m.cur + (bytes x).length ≤ e + 1 →
      (scan m).result = some (at' x m.cur, { next m (at' x m.cur) with cur := m.cur + (bytes x).length }) ∧
        ∀ n ∈ (scan m).fields, Ends p e n)
    (hd : m.data = p) (he : m.mend = e) (hat : At p m.cur (xs.flatMap bytes))
    (hle : m.cur + (xs.flatMap bytes).length ≤ e + 1) :
    (scanMany scan xs.length m).result =
        some ((placed bytes xs m.cur).map (fun x => at' x.1 x.2),
          { ((placed bytes xs m.cur).map
            (fun x => at' x.1 x.2)).foldl next m with cur := m.cur + (xs.flatMap bytes).length }) ∧
      ∀ n ∈ (scanMany scan xs.length m).fields, Ends p e n := by
  induction xs generalizing m with
  | nil => exact ⟨by simp [scanMany, Scan.done, placed], by simp [scanMany, Scan.done]⟩
  | cons x xs ih =>
    rw [flatMap_cons] at hat hle
    rw [length_append] at hle
    obtain ⟨hfirst, hends⟩ := hscan x (.head _) m hd he hat.take (by omega)
    obtain ⟨hdata, hmend⟩ := hkept m (at' x m.cur)
    obtain ⟨hrest, hends'⟩ := @ih { next m (at' x m.cur) with cur := m.cur + (bytes x).length }
      (fun x' hx' => hscan x' (.tail _ hx')) (hdata.trans hd) (hmend.trans he) hat.drop
      (by show _ + _ + _ ≤ _; omega)
    rw [foldl_cur hnext] at hrest
    rw [length_cons, scanMany]
    constructor
    · simp only [Scan.andThen, hfirst, hrest, Scan.done, placed, map_cons, foldl_cons, flatMap_cons,
        length_append, Nat.add_assoc]
    · intro n hn
      rw [andThen_fields hfirst] at hn
      rcases mem_append.mp hn with hn | hn
      · exact hends n hn
      · rw [andThen_fields hrest] at hn
        exact hends' n (by simpa [Scan.done] using hn)

theorem forall₂_placed {bytes : α → Mem} {at' : α → Nat → β} {Good : α → β → Prop} {xs : List α} {c : Nat}
    (hat : At p c (xs.flatMap bytes)) (hle : c + (xs.flatMap bytes).length ≤ e + 1)
    (hgood : ∀ x ∈ xs, ∀ c, At p c (bytes x) → c + (bytes x).length ≤ e + 1 → Good x (at' x c)) :
    Forall₂ Good xs ((placed bytes xs c).map (fun x => at' x.1 x.2)) := by
  induction xs generalizing c with
  | nil => exact .nil
  | cons x xs ih =>
    rw [flatMap_cons] at hat hle
    rw [length_append] at hle
    exact .cons (hgood x (.head _) c hat.take (by omega))
      (ih hat.drop (by omega) (fun x' hx' => hgood x' (.tail _ hx')))

theorem mem_placed {bytes : α → Mem} {xs : List α} {c : Nat} {x : α} {off : Nat} (h : (x, off) ∈ placed bytes xs c)
    (hat : At p c (xs.flatMap bytes)) :
    At p off (bytes x) ∧ off + (bytes x).length ≤ c + (xs.flatMap bytes).length ∧ x ∈ xs := by
  induction xs generalizing c with
  | nil => cases h
  | cons x' xs ih =>
    rw [flatMap_cons] at hat ⊢
    rw [length_append]
    rcases mem_cons.mp h with heq | h
    · cases heq
      exact ⟨hat.take, by omega, .head _⟩
    · obtain ⟨h1, h2, h3⟩ := ih h hat.drop
      exact ⟨h1, by omega, .tail _ h3⟩

end sections

section packets
variable {plan : Plan} {m m' : Message} {body : Mem} {h : Header}

/-- The names that pointers may lead to: those of the questions, apart from the root. -/
def Plan.Refs (plan : Plan) (off : Nat) (ls : Labels) : Prop :=
  ls ≠ [] ∧ ∃ q, (q, off) ∈ placed Asked.bytes plan.questions headerSize ∧ q.name.labels = ls

structure Plan.Valid (plan : Plan) : Prop where
  questions : plan.questions.length ≤ maxQuestions
  answers : plan.answers.length ≤ maxAnswers
  authorities : plan.authorities.length ≤ maxAuthorities
  asked : ∀ q ∈ plan.questions, q.Bounded
  answer : ∀ x ∈ plan.answers, x.Valid plan.Refs
  authority : ∀ x ∈ plan.authorities, x.proposed.Valid plan.Refs

theorem Plan.Valid.hasTtls (h : plan.Valid) : plan.HasTtls :=
  ⟨fun x hx => Nat.ne_of_lt (h.answer x hx).ttl, fun x hx => Nat.ne_of_lt (h.authority x hx).ttl⟩

def Plan.answersAt (plan : Plan) : Nat := headerSize + (plan.questions.flatMap Asked.bytes).length

def Plan.authoritiesAt (plan : Plan) : Nat := plan.answersAt + (plan.answers.flatMap Entry.bytes).length

def Plan.askedAt (plan : Plan) : List Question :=
  (placed Asked.bytes plan.questions headerSize).map (fun x => x.1.at x.2)

def Plan.answeredAt (plan : Plan) : List Resource :=
  (placed Entry.bytes plan.answers plan.answersAt).map (fun x => x.1.at x.2)

def Plan.proposedAt (plan : Plan) : List Resource :=
  (placed Entry.bytes (plan.authorities.map Entry.proposed) plan.authoritiesAt).map (fun x => x.1.at x.2)

def sorted (m : Message) (rs : List Resource) : Message :=
  { m with as := (rs.filter (·.type = tA)).reverse ++ m.as
           srvs := (rs.filter (·.type = tSrv)).reverse ++ m.srvs
           txts := (rs.filter (·.type = tTxt)).reverse ++ m.txts
           ptrs := (rs.filter (·.type = tPtr)).reverse ++ m.ptrs }

theorem sorted_cons (m : Message) (r : Resource) (rs : List Resource) :
    sorted m (r :: rs) = sorted (sortRecord m r) rs := by
  unfold sortRecord
  split_ifs with h1 h2 h3 h4
  all_goals simp [sorted, h1, tA, tSrv, tTxt, tPtr]
  all_goals simp_all [tA, tSrv, tTxt, tPtr]

theorem foldl_sortRecord (rs : List Resource) (m : Message) : rs.foldl sortRecord m = sorted m rs := by
  induction rs generalizing m with
  | nil => rfl
  | cons r rs ih => rw [foldl_cons, ih, sorted_cons]

/-- The message that the parser makes of it, in a packet of `mlen` bytes. -/
def Plan.parsed (plan : Plan) (data : Mem) (mlen : Nat) : Message :=
  { sorted (startMessage data mlen) (plan.answeredAt ++ plan.proposedAt) with
    cur := headerSize + plan.body.length, questions := plan.askedAt, answers := plan.answeredAt
    authorities := plan.proposedAt }

theorem swapFlags_eq {id flags rest : Mem} (hid : id.length = 2) (hflags : flags.length = 2) :
    swapFlags (id ++ flags ++ rest) = id ++ flags.reverse ++ rest := by
  match id, flags, hid, hflags with
  | [a, b], [c, d], _, _ => rfl

theorem Message.Holds.swapped (hm : m.Holds h body) :
    At (swapFlags m.data) 0 (h.id ++ h.flags.reverse) ∧ At (swapFlags m.data) headerSize body := by
  obtain ⟨front, back, heq, hf⟩ := hm.data
  obtain rfl := eq_nil_of_length_eq_zero hf
  have hsplit : m.data = h.id ++ h.flags ++
      (setUint16 h.questions ++ setUint16 h.answers ++ setUint16 h.authorities ++ [0, 0] ++ body ++ back) := by
    rw [heq]
    simp [Header.bytes]
  rw [hsplit, swapFlags_eq hm.id hm.flags]
  refine ⟨⟨[], _, rfl, rfl⟩, ⟨h.id ++ h.flags.reverse ++ setUint16 h.questions ++ setUint16 h.answers ++
    setUint16 h.authorities ++ [0, 0], back, by simp, ?_⟩⟩
  simp [hm.id, hm.flags, setUint16, headerSize]

/-- The header makes the parser read the entries of the plan: the flags are those of its kind, and the
counters say how many entries there are, or more where the parser stops at its limit. -/
structure Plan.Heads (plan : Plan) (h : Header) : Prop where
  flags : h.flags = if plan.response then responseFlags else [0, 0]
  questions : min (h.questions % 65536) maxQuestions = plan.questions.length
  answers : min (h.answers % 65536) maxAnswers = plan.answers.length
  authorities : min (h.authorities % 65536) maxAuthorities = plan.authorities.length

theorem Plan.Valid.heads (hv : plan.Valid) : plan.Heads plan.header := by
  have hq := hv.questions
  have ha := hv.answers
  have hr := hv.authorities
  unfold maxQuestions at hq
  unfold maxAnswers at ha
  unfold maxAuthorities at hr
  refine ⟨rfl, ?_, ?_, ?_⟩
  · show min (plan.questions.length % 65536) 32 = _
    omega
  · show min (plan.answers.length % 65536) 32 = _
    omega
  · show min (plan.authorities.length % 65536) 32 = _
    omega

theorem Message.Holds.flagByte (hm : m.Holds h body) (hh : plan.Heads h) :
    byte (swapFlags m.data) 3 = if plan.response then 132 else 0 := by
  obtain ⟨front, back, heq, hf⟩ := hm.swapped.1
  obtain rfl := eq_nil_of_length_eq_zero hf
  have hid := hm.id
  rw [heq, hh.flags]
  match h.id, hid with
  | [a, b], _ => cases plan.response <;> rfl

theorem Plan.Heads.start (hh : plan.Heads h) (hm : m.Holds h body) :
    (startMessage m.data m.cur).numQuestions = plan.questions.length ∧
      (startMessage m.data m.cur).numAnswers = plan.answers.length ∧
      (startMessage m.data m.cur).numAuthorities = plan.authorities.length ∧ opcode (swapFlags m.data) = 0 := by
  obtain ⟨h0, h1, h2⟩ := hm.counts
  refine ⟨?_, ?_, ?_, ?_⟩
  · exact (congrArg (min · maxQuestions) h0).trans hh.questions
  · exact (congrArg (min · maxAnswers) h1).trans hh.answers
  · exact (congrArg (min · maxAuthorities) h2).trans hh.authorities
  · rw [opcode, hm.flagByte hh]
    split <;> rfl

theorem Plan.target {p : Mem} {e off : Nat} {ls : Labels} (hat : At p headerSize (plan.questions.flatMap Asked.bytes))
    (hle : plan.answersAt ≤ e + 1) (he : e < 16384) (h : plan.Refs off ls) : Target p e off ls := by
  obtain ⟨hroot, q, hq, rfl⟩ := h
  obtain ⟨hbytes, hend, -⟩ := mem_placed hq hat
  have hlen : q.bytes.length = (encodeName q.name.labels).length + 4 := by simp [Asked.bytes, setUint16]
  unfold Plan.answersAt at hle
  rw [Asked.bytes] at hbytes
  exact ⟨hbytes.take.take, q.name.sizes, hroot, by omega, by omega⟩

theorem scanMany_questions {p : Mem} {e : Nat} (hv : plan.Valid) (hd : m.data = p) (he : m.mend = e)
    (hcur : m.cur = headerSize)
    (hat : At p headerSize (plan.questions.flatMap Asked.bytes)) (hle : plan.answersAt ≤ e + 1) :
    (scanMany scanQuestion plan.questions.length m).result = some (plan.askedAt, { m with cur := plan.answersAt }) ∧
      ∀ n ∈ (scanMany scanQuestion plan.questions.length m).fields, Ends p e n := by
  have hmany := @scanMany_eq p e m Asked Question scanQuestion Asked.bytes Asked.at (fun m _ => m) plan.questions
    (fun _ _ _ => rfl) (fun _ _ => ⟨rfl, rfl⟩) ?_ hd he (hcur ▸ hat) (hcur ▸ hle)
  · rw [hcur] at hmany
    have hfold : ∀ ys : List Question, ys.foldl (fun m _ => m) m = m := by
      intro ys
      induction ys with
      | nil => rfl
      | cons y ys ih => exact ih
    rw [hfold] at hmany
    exact hmany
  · intro q hq m hd he hat hle
    subst hd he
    obtain ⟨hscan, hfield⟩ := scanQuestion_eq (hv.asked q hq) hat hle
    rw [hscan]
    refine ⟨rfl, fun n hn => ?_⟩
    rw [mem_singleton.mp hn]
    exact hfield.accepted

theorem sortRecord_cur (m : Message) (r : Resource) (c : Nat) :
    sortRecord { m with cur := c } r = { sortRecord m r with cur := c } := by
  unfold sortRecord
  split_ifs <;> rfl

theorem scanMany_resources {p : Mem} {e : Nat} {refs : Nat → Labels → Prop} {xs : List (Entry Owner)}
    (hx : ∀ x ∈ xs, x.Valid refs) (hrefs : ∀ off ls, refs off ls → Target p e off ls) (he' : e < 65536)
    (hd : m.data = p) (he : m.mend = e) (hat : At p m.cur (xs.flatMap Entry.bytes))
    (hle : m.cur + (xs.flatMap Entry.bytes).length ≤ e + 1) :
    ((scanMany scanResource xs.length m).result =
      some ((placed Entry.bytes xs m.cur).map (fun x => x.1.at x.2),
        { sorted m ((placed Entry.bytes xs m.cur).map (fun x => x.1.at x.2)) with
          cur := m.cur + (xs.flatMap Entry.bytes).length })) ∧
      (∀ n ∈ (scanMany scanResource xs.length m).fields, Ends p e n) ∧
      Forall₂ (Recorded p refs) xs ((placed Entry.bytes xs m.cur).map (fun x => x.1.at x.2)) := by
  have hmany := @scanMany_eq p e m (Entry Owner) Resource scanResource Entry.bytes Entry.at sortRecord xs
    sortRecord_cur (fun m r => ⟨(kept_sortRecord m r).data, (kept_sortRecord m r).mend⟩) ?_ hd he hat hle
  · rw [foldl_sortRecord] at hmany
    refine ⟨hmany.1, hmany.2, forall₂_placed hat hle (fun x hmem c hat hle => ?_)⟩
    subst hd he
    exact (@scanResource_eq { m with cur := c } refs x (hx x hmem) hrefs hat hle he').2.2
  · intro x hmem m hd he hat hle
    subst hd he
    obtain ⟨hres, hends, -⟩ := scanResource_eq (hx x hmem) hrefs hat hle he'
    rw [sortRecord_cur] at hres
    exact ⟨hres, hends⟩

theorem andThen_eq {α β : Type} {s : Scan α} {t : α → Scan β} {a : α} (h : s.result = some a) :
    s.andThen t = ⟨s.fields ++ (t a).fields, (t a).result⟩ := by
  unfold Scan.andThen
  rw [h]

theorem scanPacket_of_sections {data : Mem} {mlen : Nat} {x : List Question × Message} {y z : List Resource × Message}
    (hlen : headerSize ≤ mlen) (hop : opcode (startMessage data mlen).data = 0)
    (hx : (scanMany scanQuestion (startMessage data mlen).numQuestions (startMessage data mlen)).result = some x)
    (hy : (scanMany scanResource x.2.numAnswers { x.2 with questions := x.1 }).result = some y)
    (hz : (scanMany scanResource y.2.numAuthorities { y.2 with answers := y.1 }).result = some z) :
    (scanPacket data mlen).result = some { z.2 with authorities := z.1 } ∧
      (scanPacket data mlen).fields =
        (scanMany scanQuestion (startMessage data mlen).numQuestions (startMessage data mlen)).fields ++
          ((scanMany scanResource x.2.numAnswers { x.2 with questions := x.1 }).fields ++
            (scanMany scanResource y.2.numAuthorities { y.2 with answers := y.1 }).fields) := by
  unfold scanPacket
  simp only [Scan.need]
  rw [if_pos hlen, if_pos hop, andThen_eq hx, andThen_eq hy, andThen_eq hz]
  exact ⟨rfl, by simp [Scan.done]⟩

/-- What was built is parsed, and every record is the one that was added. Bytes may follow the entries
that the parser reads. -/
theorem Plan.parse {extra : Mem} (hv : plan.Valid) (hh : plan.Heads h) (hm : m.Holds h (plan.body ++ extra))
    (hroom : m.cur ≤ dataMax) :
    Comes (fun fuel => mdnsParseMessage fuel m.data m.cur) (.ok (plan.parsed m.data m.cur)) ∧
      Forall₂ (fun (q : Asked) q' => Expands (.packet (swapFlags m.data)) q'.qname q.name.labels ∧
        q'.qtype = q.type ∧ q'.qclass = q.cls) plan.questions plan.askedAt ∧
      Forall₂ (Recorded (swapFlags m.data) plan.Refs) plan.answers plan.answeredAt ∧
      Forall₂ (Recorded (swapFlags m.data) plan.Refs) (plan.authorities.map Entry.proposed) plan.proposedAt := by
  obtain ⟨hnq, hna, hnr, hop⟩ := hh.start hm
  have hbody := hm.swapped.2.take
  have hcur : m.cur = headerSize + plan.body.length + extra.length := by
    rw [hm.cur, length_append, Nat.add_assoc]
  have hlen : plan.body.length = (plan.questions.flatMap Asked.bytes).length +
    (plan.answers.flatMap Entry.bytes).length +
      ((plan.authorities.map Entry.proposed).flatMap Entry.bytes).length := by
    rw [Plan.body, length_append, length_append]
  have hauth : plan.authoritiesAt = plan.answersAt + (plan.answers.flatMap Entry.bytes).length := rfl
  have hans : plan.answersAt = headerSize + (plan.questions.flatMap Asked.bytes).length := rfl
  unfold dataMax at hroom
  have hheader : headerSize = 12 := rfl
  obtain ⟨e, he⟩ : ∃ e, m.cur = e + 1 := ⟨m.cur - 1, by omega⟩
  -- where the sections lie
  rw [Plan.body] at hbody
  have hq := hbody.take.take
  have ha := hbody.take.drop
  have hr := hbody.drop
  rw [length_append, ← Nat.add_assoc] at hr
  have hrefs : ∀ off ls, plan.Refs off ls → Target (swapFlags m.data) e off ls := fun off ls href =>
    Plan.target hq (by omega) (by omega) href
  have hmend : (startMessage m.data m.cur).mend = e := by
    show m.cur - 1 = e
    omega
  obtain ⟨hres1, hends1⟩ :=
    @scanMany_questions plan (startMessage m.data m.cur) (swapFlags m.data) e hv rfl hmend rfl hq (by omega)
  obtain ⟨hres2, hends2, hgood2⟩ := @scanMany_resources
    { startMessage m.data m.cur with cur := plan.answersAt, questions := plan.askedAt } (swapFlags m.data) e plan.Refs
    plan.answers hv.answer hrefs (by omega) rfl hmend ha (by show plan.answersAt + _ ≤ _; omega)
  obtain ⟨hres3, hends3, hgood3⟩ := @scanMany_resources
    { sorted { startMessage m.data m.cur with cur := plan.answersAt, questions := plan.askedAt } plan.answeredAt with
      cur := plan.authoritiesAt, answers := plan.answeredAt } (swapFlags m.data) e plan.Refs
    (plan.authorities.map Entry.proposed) (by simpa using hv.authority) hrefs (by omega) rfl hmend hr
    (by show plan.authoritiesAt + _ ≤ _; omega)
  rw [length_map] at hres3 hends3
  have hscan : (scanPacket m.data m.cur).result = some (plan.parsed m.data m.cur) ∧
      ∀ n ∈ (scanPacket m.data m.cur).fields, Ends (swapFlags m.data) e n := by
    rw [← hnq] at hres1 hends1
    rw [← hna] at hres2 hends2
    rw [← hnr] at hres3 hends3
    obtain ⟨hresult, hfields⟩ := scanPacket_of_sections (by omega) hop hres1 hres2 hres3
    refine ⟨?_, fun n hn => ?_⟩
    · have hend : plan.authoritiesAt + ((plan.authorities.map Entry.proposed).flatMap Entry.bytes).length =
          headerSize + plan.body.length := by omega
      rw [hresult, Plan.parsed, ← hend]
      simp only [sorted, filter_append, reverse_append, append_assoc]
      rfl
    · rw [hfields] at hn
      rcases mem_append.mp hn with hn | hn
      · exact hends1 n hn
      · rcases mem_append.mp hn with hn | hn
        · exact hends2 n hn
        · exact hends3 n hn
  refine ⟨?_, ?_, hgood2, hgood3⟩
  · have hcomes := mdnsParseMessage_comes m.data m.cur
    rwa [show m.cur - 1 = e by omega, outcome_eq_ok.mpr hscan] at hcomes
  · refine forall₂_placed hq (show _ ≤ e + 1 by omega) (fun q hmem c hat hle => ?_)
    have hfield := (@scanQuestion_eq { startMessage m.data m.cur with cur := c } q (hv.asked q hmem) hat
      (by show c + _ ≤ (startMessage m.data m.cur).mend + 1; omega)).2
    exact ⟨hfield.expands, rfl, rfl⟩

end packets

section roundTrip
variable {plan : Plan} {m m' : Message}

/-- `dname_cmp` finds the name of these labels at the offset. -/
def SameName (p : Mem) (n : Nat) (ls : Labels) : Prop :=
  Comes (fun fuel => dnameCmp fuel (.packet p) n (.plain (encodeName ls)) 0) (some 0)

theorem Expands.sameName {p : Mem} {n : Nat} {ls : Labels} (h : Expands (.packet p) n ls) : SameName p n ls := by
  have hplain : Expands (.plain (encodeName ls)) 0 ls :=
    expands_encodeName h.length_pos ⟨[], [], by simp, rfl⟩
  have hcomes := dnameCmp_comes h hplain
  rwa [cmpLabels_eq_zero.mpr rfl] at hcomes

def Message.aa (m : Message) : Bool := decide (byte m.data 3 / 4 % 2 = 1)

structure FoundQuestion (p : Mem) (q : Asked) (q' : Question) : Prop where
  name : SameName p q'.qname q.name.labels
  type : q'.qtype = q.type
  cls : q'.qclass = q.cls

/-- The record has the name, the fields and the data of the one that was added, and the names in its
data are the ones that were meant. -/
structure FoundRecord (p : Mem) (refs : Nat → Labels → Prop) (x : Entry Owner) (r : Resource) : Prop where
  name : ∀ ls, x.owner.Means refs ls → SameName p r.name ls
  type : r.type = x.type
  cls : r.cls = x.cls
  ttl : r.ttl = x.ttl
  rdlength : r.rdlength = x.data.bytes.length
  rdata : slice p r.rdata r.rdlength = x.data.bytes
  target : ∀ skip ls, x.data.Means refs skip ls → SameName p (r.rdata + skip) ls

theorem Recorded.found {p : Mem} {refs : Nat → Labels → Prop} {x : Entry Owner} {r : Resource}
    (h : Recorded p refs x r) :
    FoundRecord p refs x r where
  name := fun ls hls => (h.name ls hls).sameName
  type := h.type
  cls := h.cls
  ttl := h.ttl
  rdlength := h.rdlength
  rdata := by rw [h.rdlength, h.rdata.slice]
  target := fun skip ls hls => (h.target skip ls hls).sameName

/-- A message that was built by successful calls is parsed to its end, and what is found is what was
added. -/
theorem mdnsParseMessage_roundTrip (hv : plan.Valid) (hbuilt : addAll plan.adds (plan.init m) = (m', true)) :
    ∃ found : Message, Comes (fun fuel => mdnsParseMessage fuel m'.data m'.cur) (.ok found) ∧ found.cur = m'.cur ∧
      found.qr = plan.response ∧ found.aa = plan.response ∧
      Forall₂ (FoundQuestion found.data) plan.questions found.questions ∧
      Forall₂ (FoundRecord found.data plan.Refs) plan.answers found.answers ∧
      Forall₂ (FoundRecord found.data plan.Refs) (plan.authorities.map Entry.proposed) found.authorities := by
  obtain ⟨hm, hroom⟩ := Plan.holds hv.hasTtls hbuilt
  have hm' : m'.Holds plan.header (plan.body ++ []) := by rwa [append_nil]
  obtain ⟨hparse, hq, ha, hr⟩ := Plan.parse hv hv.heads hm' (hm.cur ▸ hroom)
  have hbyte : byte (plan.parsed m'.data m'.cur).data 3 = if plan.response then 132 else 0 := hm.flagByte hv.heads
  refine ⟨plan.parsed m'.data m'.cur, hparse, hm.cur.symm, ?_, ?_, ?_, ?_, ?_⟩
  · rw [Message.qr, hbyte]
    cases plan.response <;> rfl
  · rw [Message.aa, hbyte]
    cases plan.response <;> rfl
  · exact hq.imp (fun _ _ h => ⟨h.1.sameName, h.2.1, h.2.2⟩)
  · exact ha.imp (fun _ _ h => h.found)
  · exact hr.imp (fun _ _ h => h.found)

/-- A question for `a`, and an answer with its address whose name is a pointer to the question. -/
def addressPlan : Plan :=
  { response := true
    questions := [{ name := ⟨[1, 97, 0], [[97]], ⟨[], [], rfl, rfl⟩, by decide, by decide⟩, type := tA, cls := cIn }]
    answers := [{ owner := .offset 12, type := tA, cls := cFlush, ttl := 120, data := .uint32 167772161 }]
    authorities := [] }

theorem addressPlan_refs : addressPlan.Refs 12 [[97]] := ⟨nofun, _, mem_cons_self, rfl⟩

theorem addressPlan_valid : addressPlan.Valid where
  questions := by decide
  answers := by decide
  authorities := by decide
  asked := by
    intro q hq
    obtain rfl := mem_singleton.mp hq
    exact ⟨by decide, by decide⟩
  answer := by
    intro x hx
    obtain rfl := mem_singleton.mp hx
    exact ⟨⟨_, addressPlan_refs⟩, by decide, by decide, by decide, by decide, by decide, by decide⟩
  authority := nofun

theorem mdnsParseMessage_roundTrip_address : ∃ built found : Message,
    addAll addressPlan.adds (addressPlan.init { data := [], mend := 0, cur := 0 }) = (built, true) ∧
      Comes (fun fuel => mdnsParseMessage fuel built.data built.cur) (.ok found) ∧ found.cur = built.cur := by
  have hbuilt : addAll addressPlan.adds (addressPlan.init { data := [], mend := 0, cur := 0 }) = (_, true) :=
    Prod.ext rfl (by decide +kernel)
  obtain ⟨found, hparse, hcur, -⟩ := mdnsParseMessage_roundTrip addressPlan_valid hbuilt
  exact ⟨_, found, hbuilt, hparse, hcur⟩

end roundTrip

end Mdns
