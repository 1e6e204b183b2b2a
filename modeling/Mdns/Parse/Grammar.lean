import Mathlib.Logic.Relation
import Mdns.Parse.Safety

/-!
# The grammar of names

A length byte of a name is at most 63 for a label and at least 192 for a pointer, and the bytes between
them are reserved. `IS_POINTER` takes these for pointers as well, so `dname_size` never comes to its own
check of a length byte.
-/
namespace Mdns
open Lib Relation

section grammar
variable {p : Mem} {n d : Nat} {c : Nat}

inductive NameByte where
  | root
  | label
  | reserved
  | pointer
deriving DecidableEq

def nameByte (c : Nat) : NameByte :=
  if c = 0 then .root else if c ≤ 63 then .label else if c < 192 then .reserved else .pointer

inductive Reads (p : Mem) : Nat → Nat → Prop where
  | label {n : Nat} : nameByte (byte p n) = .label → Reads p n (n + byte p n + 1)
  | pointer {n : Nat} : nameByte (byte p n) = .pointer → Reads p n (pointer p n)

/-- Reading the name comes to a reserved byte, where the grammar has no next step. -/
def UsesReserved (p : Mem) (n : Nat) : Prop := ∃ d, ReflTransGen (Reads p) n d ∧ nameByte (byte p d) = .reserved

/-- The walkers meet the length byte at `d` when they expand the name at `n`. -/
def Meets (p : Mem) (n d : Nat) : Prop := ∃ k, (hop p)^[k] n = d ∧ ∀ i < k, byte p ((hop p)^[i] n) ≠ 0

/-- One of the name's own length bytes, before any pointer is followed, is reserved. -/
def OwnReserved (p : Mem) (n : Nat) : Prop :=
  ∃ k, StopsAt (labelHop p) (OwnStop p) n k ∧ nameByte (byte p ((labelHop p)^[k] n)) = .reserved

theorem nameByte_label : nameByte c = .label ↔ c ≠ 0 ∧ c ≤ 63 := by
  unfold nameByte
  split_ifs <;> simp only [false_iff, true_iff] <;> omega

theorem nameByte_pointer : nameByte c = .pointer ↔ 192 ≤ c := by
  unfold nameByte
  split_ifs <;> simp only [false_iff, true_iff] <;> omega

theorem nameByte_reserved : nameByte c = .reserved ↔ ¬ (c ≤ 63 ∨ 192 ≤ c) := by
  unfold nameByte
  split_ifs <;> simp only [false_iff, true_iff] <;> omega

theorem Reads.hop (h : Reads p n d) : byte p n ≠ 0 ∧ hop p n = d := by
  cases h with
  | label hl =>
    obtain ⟨hzero, hle⟩ := nameByte_label.mp hl
    refine ⟨hzero, if_neg ?_⟩
    intro hptr
    have h64 := isPointer_iff.mp hptr
    omega
  | pointer hl =>
    have hge := nameByte_pointer.mp hl
    exact ⟨by omega, if_pos (isPointer_iff.mpr (by omega))⟩

theorem reads_hop (hzero : byte p n ≠ 0) (hres : nameByte (byte p n) ≠ .reserved) : Reads p n (hop p n) := by
  have hbyte := not_not.mp (mt nameByte_reserved.mpr hres)
  by_cases hptr : isPointer (byte p n) = true
  · have h64 := isPointer_iff.mp hptr
    rw [hop, if_pos hptr]
    exact .pointer (nameByte_pointer.mpr (by omega))
  · have h64 : ¬ 64 ≤ byte p n := fun h => hptr (isPointer_iff.mpr h)
    rw [hop, if_neg hptr]
    exact .label (nameByte_label.mpr ⟨hzero, by omega⟩)

theorem Meets.refl : Meets p n n := ⟨0, rfl, fun i hi => absurd hi (Nat.not_lt_zero i)⟩

theorem Meets.step (h : Meets p n d) (hzero : byte p d ≠ 0) : Meets p n (hop p d) := by
  obtain ⟨k, rfl, hk⟩ := h
  refine ⟨k + 1, Function.iterate_succ_apply' _ _ _, ?_⟩
  intro i hi
  rcases Nat.lt_or_eq_of_le (Nat.le_of_lt_succ hi) with hlt | rfl
  · exact hk i hlt
  · exact hzero

theorem meets_of_reads (h : ReflTransGen (Reads p) n d) : Meets p n d := by
  induction h with
  | refl => exact .refl
  | tail _ hstep ih =>
    obtain ⟨hzero, rfl⟩ := hstep.hop
    exact ih.step hzero

theorem usesReserved_iff : UsesReserved p n ↔ ∃ d, Meets p n d ∧ nameByte (byte p d) = .reserved := by
  constructor
  · rintro ⟨d, hreads, hres⟩
    exact ⟨d, meets_of_reads hreads, hres⟩
  · rintro ⟨d, ⟨k, hd, hk⟩, hres⟩
    induction k generalizing n with
    | zero =>
      cases hd
      exact ⟨n, .refl, hres⟩
    | succ k ih =>
      -- the first reserved byte is where reading by the grammar gets stuck
      by_cases hfirst : nameByte (byte p n) = .reserved
      · exact ⟨n, .refl, hfirst⟩
      · obtain ⟨d', hreads, hres'⟩ := ih hd (fun i hi => hk (i + 1) (Nat.succ_lt_succ hi))
        exact ⟨d', .head (reads_hop (hk 0 (Nat.succ_pos k)) hfirst) hreads, hres'⟩

theorem Meets.own (h : Meets p n d) (hown : OwnReserved p d) : UsesReserved p n := by
  obtain ⟨k, hk, hres⟩ := hown
  refine usesReserved_iff.mpr ⟨_, ?_, hres⟩
  -- a label is a hop
  have hmeets : ∀ i ≤ k, Meets p n ((labelHop p)^[i] d) := by
    intro i hi
    induction i with
    | zero => exact h
    | succ i ih =>
      obtain ⟨hzero, hptr⟩ := not_or.mp (hk.2 i hi)
      have hstep := (ih (Nat.le_of_succ_le hi)).step hzero
      rw [hop, if_neg hptr] at hstep
      rw [Function.iterate_succ_apply']
      exact hstep
  exact hmeets k (Nat.le_refl k)

theorem ownReserved_of_byte (h : nameByte (byte p d) = .reserved) : OwnReserved p d := by
  refine ⟨0, ⟨.inr (isPointer_iff.mpr ?_), fun i hi => absurd hi (Nat.not_lt_zero i)⟩, h⟩
  have hbyte := nameByte_reserved.mp h
  show 64 ≤ byte p d
  omega

theorem dnameSize_ne_invalid {fuel : Nat} : dnameSize fuel p n ≠ some (-1) := by
  intro h
  obtain ⟨c, hc⟩ := exists_ownBytes p n
  have hsize := dnameSize_eq hc (Nat.lt_of_lt_of_le (Nat.lt_succ_self _) (Nat.le_max_right fuel (p.length + 1)))
  have hmore := loop_mono (Nat.le_max_left fuel (p.length + 1)) h
  have heq : (c : Int) - n = -1 := Option.some.inj (hsize.symm.trans hmore)
  have hlt := hc.lt
  omega

end grammar

section packet
variable {data : Mem} {mlen : Nat}

def Message.owners (m : Message) : List Nat := m.questions.map (·.qname) ++ m.records.map (·.name)

/-- The parser keeps to the grammar on this packet: accepted names have labels and pointers only, and `dname_size`
rejects each name, reached through pointers or not, that has a reserved length byte of its own. -/
structure KeepsGrammar (data : Mem) (mlen : Nat) : Prop where
  accepted : ∀ fuel m, mdnsParseMessage fuel data mlen = .ok m → ∀ n ∈ m.owners, ∀ d, Meets m.data n d →
    byte m.data d ≤ 63 ∨ 192 ≤ byte m.data d
  rejected : ∀ n ∈ nameFields data mlen, ∀ d, Meets (swapFlags data) n d → OwnReserved (swapFlags data) d →
    ∃ fuel, dnameSize fuel (swapFlags data) d = some (-1)

theorem owners_subset {m : Message} (h : (scanPacket data mlen).result = some m) : m.owners ⊆ nameFields data mlen := by
  obtain ⟨hq, hr⟩ := scanPacket_covers h
  intro n hn
  rcases List.mem_append.mp hn with hn | hn
  · obtain ⟨q, hmem, rfl⟩ := List.mem_map.mp hn
    exact hq q hmem (List.mem_singleton.mpr rfl)
  · obtain ⟨r, hmem, rfl⟩ := List.mem_map.mp hn
    exact hr r hmem (List.mem_cons_self ..)

/-- The parser keeps to the grammar on the packets without a reserved length byte, and on no other. -/
theorem keepsGrammar_iff : KeepsGrammar data mlen ↔ ∀ n ∈ nameFields data mlen, ¬ UsesReserved (swapFlags data) n := by
  constructor
  · intro h n hn huses
    obtain ⟨d, hmeets, hres⟩ := usesReserved_iff.mp huses
    obtain ⟨fuel, hsize⟩ := h.rejected n hn d hmeets (ownReserved_of_byte hres)
    exact dnameSize_ne_invalid hsize
  · intro h
    constructor
    · intro fuel m hm n hn d hmeets
      obtain ⟨hscan, -⟩ := mdnsParseMessage_ok_iff.mp ⟨fuel, hm⟩
      rw [(scanPacket_data hscan).2] at hmeets ⊢
      by_contra hbyte
      exact h n (owners_subset hscan hn) (usesReserved_iff.mpr ⟨d, hmeets, nameByte_reserved.mpr hbyte⟩)
    · intro n hn d hmeets hown
      exact absurd (hmeets.own hown) (h n hn)

/-- A query whose name starts with the reserved byte 64 and goes on like a pointer to offset 18. -/
def reservedName : Mem := [0, 0, 0, 0, 0, 1, 0, 0, 0, 0, 0, 0] ++ [64, 18, 0, 1, 0, 1] ++ [1, 97, 0]

def reservedNameMessage : Message :=
  { data := swapFlags reservedName, mend := 20, cur := 18, numQuestions := 1,
    questions := [{ qname := 12, qtype := tA, qclass := cIn }] }

/-- The name is followed as a pointer, and the query is accepted. -/
theorem mdnsParseMessage_reservedName :
    mdnsParseMessage 4 reservedName 21 = .ok reservedNameMessage ∧ byte reservedNameMessage.data 12 = 64 ∧
      dnameSize 1 reservedNameMessage.data 12 = some 2 ∧ ¬ KeepsGrammar reservedName 21 := by
  have hok : mdnsParseMessage 4 reservedName 21 = .ok reservedNameMessage := by decide +kernel
  refine ⟨hok, by decide, by decide, ?_⟩
  intro h
  exact absurd (h.accepted 4 _ hok 12 (by decide) 12 .refl) (by decide)

end packet

end Mdns
