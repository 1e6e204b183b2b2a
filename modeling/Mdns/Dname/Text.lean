import Mdns.Respond.State

/-!
# Names from text

`dnameify` fails where a component is empty. Only an empty first component is accepted, unless the
byte in front of the string happens to be a separator.
-/
namespace Mdns
open List

variable {sep before : UInt8}

section components

theorem splitOn_append_sep (xs ys : List UInt8) : (xs ++ sep :: ys).splitOn sep = xs.splitOn sep ++ ys.splitOn sep :=
  splitOnP_append_cons xs ys (beq_self_eq_true sep)

theorem splitOn_cons (c : UInt8) (cs : List UInt8) :
    (c :: cs).splitOn sep = if c = sep then [] :: cs.splitOn sep else (cs.splitOn sep).modifyHead (c :: ·) := by
  unfold List.splitOn
  rw [splitOnP_cons_eq_if_modifyHead]
  simp only [beq_iff_eq]

theorem length_flatMap_components (text : List UInt8) :
    ((text.splitOn sep).flatMap dnamePutLabel).length = text.length + 1 := by
  induction text with
  | nil => rfl
  | cons c cs ih =>
    obtain ⟨first, rest, hsplit⟩ := exists_cons_of_ne_nil (splitOn_ne_nil sep cs)
    rw [splitOn_cons]
    rw [hsplit] at ih ⊢
    split
    · rw [flatMap_cons, length_append, ih, length_cons]
      show 1 + (cs.length + 1) = cs.length + 1 + 1
      omega
    · rw [modifyHead_cons, flatMap_cons, length_append, length_cons]
      rw [flatMap_cons, length_append] at ih
      simp only [dnamePutLabel, length_cons] at ih ⊢
      omega

end components

section convert
variable {cs label : List UInt8} {out : Mem}

/-- The components that are accepted: at most the first one is empty, and then only if there is no
separator in front of the string. -/
def Convertible (sep before : UInt8) (ls : Labels) : Prop := [] ∉ ls.tail ∧ (ls.head? = some [] → before ≠ sep)

instance (sep before : UInt8) (ls : Labels) : Decidable (Convertible sep before ls) :=
  inferInstanceAs (Decidable (_ ∧ _))

theorem convertible_append {ls : Labels} {l : List UInt8} (hls : ls ≠ []) :
    Convertible sep before (ls ++ [l]) ↔ l ≠ [] ∧ Convertible sep before ls := by
  obtain ⟨first, rest, rfl⟩ := exists_cons_of_ne_nil hls
  have hmem : ([] : List UInt8) ∉ rest ++ [l] ↔ l ≠ [] ∧ [] ∉ rest := by
    rw [mem_append, mem_singleton, not_or, and_comm, eq_comm]
  show [] ∉ rest ++ [l] ∧ (some first = some [] → before ≠ sep) ↔
    l ≠ [] ∧ [] ∉ rest ∧ (some first = some [] → before ≠ sep)
  rw [hmem, and_assoc]

theorem dnameifyLoop_eq (hlabel : sep ∉ label) : dnameifyLoop sep before cs label out =
    if Convertible sep before ((cs.reverse ++ label).splitOn sep) ∧ out.length + label.length + cs.length ≤ 65535 then
      some (((cs.reverse ++ label).splitOn sep).flatMap dnamePutLabel ++ out) else none := by
  induction cs generalizing label out with
  | nil =>
    have hone : label.splitOn sep = [label] := splitOn_eq_singleton hlabel
    have hacc : Convertible sep before [label] ↔ ¬ (before = sep ∧ label = []) := by
      unfold Convertible
      simp only [tail_cons, not_mem_nil, not_false_eq_true, true_and, head?_cons, Option.some.injEq]
      exact ⟨fun h hboth => h hboth.2 hboth.1, fun h hnil hbefore => h ⟨hbefore, hnil⟩⟩
    rw [reverse_nil, nil_append, hone, dnameifyLoop, length_nil, Nat.add_zero]
    by_cases hbad : before = sep ∧ label = []
    · rw [if_pos hbad, if_neg (fun h => hacc.mp h.1 hbad)]
    · rw [if_neg hbad]
      by_cases hroom : 65535 < out.length + label.length
      · rw [if_pos hroom, if_neg (fun h => Nat.not_lt.mpr h.2 hroom)]
      · rw [if_neg hroom, if_pos ⟨hacc.mpr hbad, Nat.not_lt.mp hroom⟩]
        simp
  | cons c cs ih =>
    rw [reverse_cons, append_assoc, singleton_append, dnameifyLoop, length_cons]
    by_cases hc : c = sep
    · -- the label that has been read is a component, and the last one
      have hsplit : (cs.reverse ++ c :: label).splitOn sep = cs.reverse.splitOn sep ++ [label] := by
        rw [hc, splitOn_append_sep, splitOn_eq_singleton hlabel]
      have hacc : Convertible sep before (cs.reverse.splitOn sep ++ [label]) ↔
          label ≠ [] ∧ Convertible sep before (cs.reverse.splitOn sep) :=
            convertible_append (splitOn_ne_nil sep cs.reverse)
      rw [if_pos hc, hsplit]
      by_cases hnil : label = []
      · rw [if_pos hnil, if_neg (fun h => (hacc.mp h.1).1 hnil)]
      · rw [if_neg hnil]
        by_cases hroom : 65535 < out.length + label.length
        · rw [if_pos hroom, if_neg (fun h => Nat.not_lt.mpr h.2 (by omega))]
        · have hlen : (dnamePutLabel label ++ out).length + ([] : List UInt8).length + cs.length =
              out.length + label.length + (cs.length + 1) := by
            simp only [dnamePutLabel, length_append, length_cons, length_nil]
            omega
          rw [if_neg hroom, ih not_mem_nil, append_nil, hlen]
          by_cases ha : Convertible sep before (cs.reverse.splitOn sep) ∧
            out.length + label.length + (cs.length + 1) ≤ 65535
          · rw [if_pos ha, if_pos ⟨hacc.mpr ⟨hnil, ha.1⟩, ha.2⟩]
            simp
          · rw [if_neg ha, if_neg (fun h => ha ⟨(hacc.mp h.1).2, h.2⟩)]
    · have hmem : sep ∉ c :: label := not_mem_cons_of_ne_of_not_mem (fun heq => hc heq.symm) hlabel
      have hlen : out.length + (c :: label).length + cs.length = out.length + label.length + (cs.length + 1) := by
        rw [length_cons]
        omega
      rw [if_neg hc, ih hmem, hlen]

theorem dnameify_eq (before : UInt8) (text : CString) (sep : UInt8) :
    dnameify before text sep = if Convertible sep before (text.1.splitOn sep) ∧ text.1.length ≤ 65535 then
      some ((text.1.splitOn sep).flatMap dnamePutLabel) else none := by
  unfold dnameify
  rw [dnameifyLoop_eq not_mem_nil, reverse_reverse, append_nil, append_nil, length_reverse]
  simp only [length_nil, Nat.zero_add]

end convert

end Mdns
