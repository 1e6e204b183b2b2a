import Mdns.Dname.Text
import Mdns.Query.Keys
import Mdns.Query.Threads

/-!
# Monitoring a service type

The length of a component is not checked, the length of the text is checked against that of the
field without the two bytes that the name has more, and a text with a leading dot becomes the name
that stands for all monitors.
-/
namespace Mdns
open Lib List Option

variable {n k : Nat} {before : UInt8} {text : CString}

section monitor

def components (text : CString) : Labels := text.1.splitOn dot

def fqstOf (before : UInt8) (text : CString) : Option Mem :=
  if text.1.length > maxNameLen then none else (dnameify before text dot).map (· ++ [0])

/-- `mdns_query_monitor`: the `fqst` of the command, or `none` for `MDNS_INVAL`. -/
def mdnsQueryMonitor (cb : Bool) (before : UInt8) (fqst : CString) : Option Mem :=
  if cb then fqstOf before fqst else none

theorem fqstOf_eq (before : UInt8) (text : CString) :
    fqstOf before text = if text.1.length ≤ maxNameLen ∧ Convertible dot before (components text) then
      some (encodeName (components text)) else none := by
  unfold fqstOf
  by_cases hlen : text.1.length ≤ maxNameLen
  · have hshort : text.1.length ≤ 65535 := hlen.trans (by decide)
    rw [if_neg (Nat.not_lt.mpr hlen), dnameify_eq before text dot]
    by_cases hacc : Convertible dot before (text.1.splitOn dot)
    · have hboth : text.1.length ≤ maxNameLen ∧ Convertible dot before (components text) := ⟨hlen, hacc⟩
      rw [if_pos (show _ ∧ _ from ⟨hacc, hshort⟩), if_pos hboth]
      rfl
    · have hnot : ¬ (text.1.length ≤ maxNameLen ∧ Convertible dot before (components text)) := fun h => hacc h.2
      rw [if_neg (show ¬ (_ ∧ _) from fun h => hacc h.1), if_neg hnot]
      rfl
  · rw [if_pos (Nat.lt_of_not_le hlen), if_neg (fun h => hlen h.1)]

theorem length_encode_components (text : CString) : (encodeName (components text)).length = text.1.length + 2 := by
  unfold encodeName components
  rw [length_append, length_flatMap_components]
  rfl

structure ValidFqst (text : CString) (fqst : Mem) : Prop where
  named : fqst = encodeName (components text)
  labels : ∀ l ∈ components text, 1 ≤ l.length ∧ l.length ≤ maxLabelLen
  room : fqst.length ≤ maxNameLen + 1
  short : fqst.length ≤ maxNameLen
  walked : Expands (.plain fqst) 0 (components text)

structure Proper (text : CString) : Prop where
  labels : ∀ l ∈ components text, 1 ≤ l.length ∧ l.length ≤ maxLabelLen
  length : text.1.length + 2 ≤ maxNameLen

theorem validFqst_of_proper (h : Proper text) : ValidFqst text (encodeName (components text)) := by
  have hlen := length_encode_components text
  have hshort : (encodeName (components text)).length ≤ maxNameLen := by
    rw [hlen]
    exact h.length
  refine ⟨rfl, h.labels, Nat.le_succ_of_le hshort, hshort, ?_⟩
  apply expands_encodeName
  · intro l hl
    obtain ⟨hpos, hle⟩ := h.labels l hl
    exact ⟨hpos, Nat.lt_succ_of_le hle⟩
  · exact ⟨[], [], by simp, rfl⟩

/-- Only valid names are sent for exactly those texts that are too long to be converted, that have
an empty component where it is noticed, or whose components and length are those of a name. -/
theorem mdnsQueryMonitor_valid_iff (before : UInt8) (text : CString) :
    (∀ fqst, mdnsQueryMonitor true before text = some fqst → ValidFqst text fqst) ↔
      maxNameLen < text.1.length ∨ ¬ Convertible dot before (components text) ∨ Proper text := by
  have heq : mdnsQueryMonitor true before text = fqstOf before text := rfl
  rw [heq, fqstOf_eq]
  constructor
  · intro h
    by_cases hlen : text.1.length ≤ maxNameLen
    · by_cases hacc : Convertible dot before (components text)
      · have hvalid := h _ (if_pos ⟨hlen, hacc⟩)
        have hshort := hvalid.short
        rw [length_encode_components] at hshort
        exact .inr (.inr ⟨hvalid.labels, hshort⟩)
      · exact .inr (.inl hacc)
    · exact .inl (Nat.lt_of_not_le hlen)
  · intro h fqst hsent
    split at hsent
    · next hboth =>
      cases hsent
      rcases h with hlong | hbad | hproper
      · exact absurd hboth.1 (Nat.not_le.mpr hlong)
      · exact absurd hboth.2 hbad
      · exact validFqst_of_proper hproper
    · cases hsent

def longComponent : CString := ⟨replicate 64 97, by decide⟩

def longText : CString :=
  ⟨replicate 63 97 ++ dot :: replicate 63 97 ++ dot :: replicate 63 97 ++ dot :: replicate 63 97, by decide⟩

set_option maxRecDepth 10000 in
/-- The length of a long component is a pointer, and the zero byte behind a long text is written
outside of the field. -/
theorem mdnsQueryMonitor_accepts_invalid :
    (∃ fqst, mdnsQueryMonitor true 0 longComponent = some fqst ∧ isPointer (byte fqst 0) = true ∧
      ¬ ValidFqst longComponent fqst) ∧
    ∃ fqst, mdnsQueryMonitor true 0 longText = some fqst ∧ fqst.length = maxNameLen + 2 ∧
      ¬ ValidFqst longText fqst := by
  have hcomp : mdnsQueryMonitor true 0 longComponent = some (64 :: replicate 64 97 ++ [0]) := by decide +kernel
  have htext : (mdnsQueryMonitor true 0 longText).map List.length = some 257 := by decide +kernel
  refine ⟨⟨_, hcomp, by decide +kernel, ?_⟩, ?_⟩
  · intro hvalid
    have hlabel : replicate 64 97 ∈ components longComponent := by decide +kernel
    obtain ⟨-, hle⟩ := hvalid.labels _ hlabel
    revert hle
    decide
  · obtain ⟨fqst, hsent, hlen⟩ := map_eq_some_iff.mp htext
    refine ⟨fqst, hsent, hlen, ?_⟩
    intro hvalid
    have hroom := hvalid.room
    rw [hlen] at hroom
    revert hroom
    decide

end monitor

section unmonitor
variable {H I : Type} [AList n H I] {q : Querier n k H I} {c : Fin k} {name : Mem}

/-- `mdns_query_unmonitor`: the name in the command, or `none` where no command is sent. -/
def mdnsQueryUnmonitor (before : UInt8) (fqst : Option CString) : Option Mem :=
  match fqst with
  | none => some [0]
  | some text => fqstOf before text

def unmonitor (fuel : Nat) (q : Querier n k H I) (before : UInt8) (fqst : Option CString) : Option (Querier n k H I) :=
  match mdnsQueryUnmonitor before fqst with
  | none => some q
  | some name => removeService fuel q name

end unmonitor

end Mdns
