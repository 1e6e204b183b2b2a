import Mdns.Respond.Order

/-!
# Records that hold names, byte by byte

The data of two records are meant to be compared as raw bytes, with the names written out and the length
bytes in front of the labels. `rr_cmp` compares the names label by label and never looks at the lengths
first.
-/
namespace Mdns
open Lib List

section flat
variable {as bs : Labels} {a b : List UInt8}

def unsigned (bytes : List UInt8) : List Nat := bytes.map UInt8.toNat

theorem unsigned_inj : unsigned a = unsigned b ↔ a = b :=
  (map_injective_iff.mpr (fun _ _ => UInt8.toNat_inj.mp)).eq_iff

def flatVerdict (as bs : Labels) : Int := verdict (unsigned (encodeName as)) (unsigned (encodeName bs))

theorem unsigned_cons (hl : a.length < 64) (as : Labels) :
    unsigned (encodeName (a :: as)) = a.length :: (unsigned a ++ unsigned (encodeName as)) := by
  have hlen : (UInt8.ofNat a.length).toNat = a.length := by
    rw [UInt8.toNat_ofNat', Nat.mod_eq_of_lt (by omega)]
  rw [encodeName_cons, dnamePutLabel, unsigned, cons_append, map_cons, map_append, hlen]
  rfl

theorem flatVerdict_cons (ha : a.length < 64) (hb : b.length < 64) (as bs : Labels) :
    flatVerdict (a :: as) (b :: bs) =
      if a.length ≠ b.length then verdict a.length b.length
      else if a ≠ b then verdict (unsigned a) (unsigned b) else flatVerdict as bs := by
  unfold flatVerdict
  rw [unsigned_cons ha, unsigned_cons hb, verdict_cons]
  by_cases hlen : a.length = b.length
  · have hsame : (unsigned a).length = (unsigned b).length := by
      rw [unsigned, unsigned, length_map, length_map, hlen]
    rw [if_neg (fun h => h (verdict_eq_zero.mpr hlen)), if_neg (fun h => h hlen), verdict_append hsame]
    simp only [ne_eq, verdict_eq_zero, unsigned_inj]
  · have hne : verdict a.length b.length ≠ 0 := fun h => hlen (verdict_eq_zero.mp h)
    rw [if_pos hne, if_pos hlen]

/-- Where two names first differ in a label, the label that is shorter is also the smaller one. -/
def ShorterFirst (as bs : Labels) : Prop :=
  ∀ front a b as' bs', as = front ++ a :: as' → bs = front ++ b :: bs' →
    (a.length < b.length → unsigned a < unsigned b) ∧ (b.length < a.length → unsigned b < unsigned a)

theorem shorterFirst_nil_left (bs : Labels) : ShorterFirst [] bs := by
  intro front a b as' bs' h
  simp at h

theorem shorterFirst_nil_right (as : Labels) : ShorterFirst as [] := by
  intro front a b as' bs' _ h
  simp at h

theorem shorterFirst_cons : ShorterFirst (a :: as) (b :: bs) ↔
    ((a.length < b.length → unsigned a < unsigned b) ∧ (b.length < a.length → unsigned b < unsigned a)) ∧
      (a = b → ShorterFirst as bs) := by
  constructor
  · intro h
    refine ⟨h [] a b as bs rfl rfl, ?_⟩
    rintro rfl front c d as' bs' rfl rfl
    exact h (a :: front) c d as' bs' rfl rfl
  · rintro ⟨hfirst, hrest⟩ front c d as' bs' has hbs
    cases front with
    | nil =>
      obtain ⟨rfl, -⟩ := List.cons.inj has
      obtain ⟨rfl, -⟩ := List.cons.inj hbs
      exact hfirst
    | cons l front =>
      obtain ⟨rfl, has'⟩ := List.cons.inj has
      obtain ⟨rfl, hbs'⟩ := List.cons.inj hbs
      exact hrest rfl front c d as' bs' has' hbs'

/-- Labels of different length are put in the same order by their lengths exactly if the shorter one is
the smaller one. -/
theorem verdict_length_iff (hne : a.length ≠ b.length) : verdict (unsigned a) (unsigned b) = verdict a.length b.length ↔
    (a.length < b.length → unsigned a < unsigned b) ∧ (b.length < a.length → unsigned b < unsigned a) := by
  rcases Nat.lt_or_gt_of_ne hne with hlt | hgt
  · rw [verdict_lt hlt, verdict_eq_neg_one]
    constructor
    · intro h
      exact ⟨fun _ => h, fun hgt => absurd hgt (Nat.lt_asymm hlt)⟩
    · intro h
      exact h.1 hlt
  · rw [verdict_gt hgt, verdict_eq_one]
    constructor
    · intro h
      exact ⟨fun hlt => absurd hlt (Nat.lt_asymm hgt), fun _ => h⟩
    · intro h
      exact h.2 hgt

theorem verdict_eq_flat_iff (ha : ∀ l ∈ as, 0 < l.length ∧ l.length < 64)
    (hb : ∀ l ∈ bs, 0 < l.length ∧ l.length < 64) :
    verdict (values as) (values bs) = flatVerdict as bs ↔ ShorterFirst as bs := by
  induction as generalizing bs with
  | nil =>
    refine iff_of_true ?_ (shorterFirst_nil_left bs)
    cases bs with
    | nil => rfl
    | cons b bs =>
      obtain ⟨hpos, hlt⟩ := hb b (.head _)
      have hflat : flatVerdict [] (b :: bs) = -1 := by
        unfold flatVerdict
        rw [unsigned_cons hlt]
        exact verdict_lt (cons_lt_cons_iff.mpr (.inl hpos))
      rw [hflat]
      exact verdict_nil_cons _ _
  | cons a as ih =>
    cases bs with
    | nil =>
      refine iff_of_true ?_ (shorterFirst_nil_right _)
      obtain ⟨hpos, hlt⟩ := ha a (.head _)
      have hflat : flatVerdict (a :: as) [] = 1 := by
        unfold flatVerdict
        rw [unsigned_cons hlt]
        exact verdict_gt (cons_lt_cons_iff.mpr (.inl hpos))
      rw [hflat]
      exact verdict_cons_nil _ _
    | cons b bs =>
      have hrest := @ih bs (fun l hl => ha l (.tail _ hl)) (fun l hl => hb l (.tail _ hl))
      have hvalues : verdict (values (a :: as)) (values (b :: bs)) =
          if verdict (unsigned a) (unsigned b) ≠ 0 then verdict (unsigned a) (unsigned b)
          else verdict (values as) (values bs) := verdict_cons _ _ _ _
      rw [hvalues, flatVerdict_cons (ha a (.head _)).2 (hb b (.head _)).2, shorterFirst_cons]
      by_cases hab : a = b
      · subst hab
        simpa [verdict_self] using hrest
      · have hne : verdict (unsigned a) (unsigned b) ≠ 0 := fun h => hab (unsigned_inj.mp (verdict_eq_zero.mp h))
        rw [if_pos hne]
        by_cases hlen : a.length = b.length
        · rw [if_neg (fun h => h hlen), if_pos hab]
          simp [hlen, hab]
        · rw [if_pos hlen, verdict_length_iff hlen]
          simp [hab]

end flat

section records
variable {x y : Rec} {as bs : Labels}

def nameOffset (type : Nat) : Nat := if type = tSrv then srvFixed else 0

/-- The data as they are without compression: what stands before the name, and the name written out. -/
def Rec.raw (x : Rec) (ls : Labels) : List UInt8 := x.bytes (nameOffset x.type) ++ encodeName ls

structure Rec.Names (x : Rec) (ls : Labels) : Prop where
  type : x.type = tCname ∨ x.type = tPtr ∨ x.type = tSrv
  name : Expands (.packet x.1.data) (x.2.rdata + nameOffset x.type) ls

theorem byTarget_names {off : Nat} (hx : Expands (.packet x.1.data) (x.2.rdata + off) as)
    (hy : Expands (.packet y.1.data) (y.2.rdata + off) bs) : byTarget off x y (verdict (values as) (values bs)) := by
  rw [← cmpLabels_eq]
  exact dnameCmp_iff.mp (dnameCmp_comes hx hy)

theorem not_text_of_names (hx : x.Names as) : ¬ isText x.type := by
  rintro ⟨-, hcname, hptr, hsrv⟩
  rcases hx.type with h | h | h
  · exact hcname h
  · exact hptr h
  · exact hsrv h

theorem rrOrder_names (hx : x.Names as) (hy : y.Names bs) (htype : x.type = y.type) (hcls : x.cls = y.cls) :
    rrOrder x y (if verdict (unsigned (x.bytes (nameOffset x.type))) (unsigned (y.bytes (nameOffset y.type))) ≠ 0
      then verdict (unsigned (x.bytes (nameOffset x.type))) (unsigned (y.bytes (nameOffset y.type)))
      else verdict (values as) (values bs)) := by
  have hnx := hx.name
  have hny := hy.name
  rw [← htype] at hny ⊢
  rw [rrOrder_iff, thenBy_of_eq hcls, thenBy_of_eq htype]
  refine ⟨htype, ?_⟩
  rw [if_neg (not_text_of_names hx)]
  by_cases hsrv : x.type = tSrv
  · have hoff : nameOffset x.type = srvFixed := if_pos hsrv
    rw [hoff] at hnx hny ⊢
    have hbyType : byType x.type = thenBy (byBytes (·.bytes srvFixed)) (byTarget srvFixed) := by
      rw [hsrv]
      rfl
    rw [hbyType]
    have hfixed : byBytes (·.bytes srvFixed) x y
      (verdict (unsigned (x.bytes srvFixed)) (unsigned (y.bytes srvFixed))) :=
      cmpBytes_eq _ _
    by_cases hne : verdict (unsigned (x.bytes srvFixed)) (unsigned (y.bytes srvFixed)) = 0
    · rw [if_neg (fun h => h hne)]
      exact .inr ⟨hne ▸ hfixed, byTarget_names hnx hny⟩
    · rw [if_pos hne]
      exact .inl ⟨hne, hfixed⟩
  · have hoff : nameOffset x.type = 0 := if_neg hsrv
    rw [hoff] at hnx hny ⊢
    have hbyType : byType x.type = byTarget 0 := by
      rcases hx.type with h | h | h
      · rw [h]
        rfl
      · rw [h]
        rfl
      · exact absurd h hsrv
    rw [hbyType, if_neg (fun h => h (verdict_self _))]
    exact byTarget_names hnx hny

/-- `rr_cmp` puts two such records in the order of their raw data exactly if, where what stands before the
names is the same, shorter labels are smaller. -/
theorem rrCmp_flat_iff (hx : x.Names as) (hy : y.Names bs) (htype : x.type = y.type) (hcls : x.cls = y.cls) :
    ∃ c, rrOrder x y c ∧ (c = verdict (unsigned (x.raw as)) (unsigned (y.raw bs)) ↔
      (x.bytes (nameOffset x.type) = y.bytes (nameOffset y.type) → ShorterFirst as bs)) := by
  refine ⟨_, rrOrder_names hx hy htype hcls, ?_⟩
  have hlen : (unsigned (x.bytes (nameOffset x.type))).length = (unsigned (y.bytes (nameOffset y.type))).length := by
    simp only [unsigned, Rec.bytes, length_map, slice_length, htype]
  have hraw : verdict (unsigned (x.raw as)) (unsigned (y.raw bs)) =
      if verdict (unsigned (x.bytes (nameOffset x.type))) (unsigned (y.bytes (nameOffset y.type))) ≠ 0
      then verdict (unsigned (x.bytes (nameOffset x.type))) (unsigned (y.bytes (nameOffset y.type)))
      else flatVerdict as bs := by
    have hx' : unsigned (x.raw as) = unsigned (x.bytes (nameOffset x.type)) ++ unsigned (encodeName as) := map_append
    have hy' : unsigned (y.raw bs) = unsigned (y.bytes (nameOffset y.type)) ++ unsigned (encodeName bs) := map_append
    rw [hx', hy', verdict_append hlen]
    rfl
  have hflat := verdict_eq_flat_iff hx.name.length_pos hy.name.length_pos
  rw [hraw]
  by_cases hsame : x.bytes (nameOffset x.type) = y.bytes (nameOffset y.type)
  · have hzero : verdict (unsigned (x.bytes (nameOffset x.type))) (unsigned (y.bytes (nameOffset y.type))) = 0 :=
      verdict_eq_zero.mpr (unsigned_inj.mpr hsame)
    rw [if_neg (fun h => h hzero), if_neg (fun h => h hzero), hflat]
    exact ⟨fun h _ => h, fun h => h hsame⟩
  · have hne : verdict (unsigned (x.bytes (nameOffset x.type))) (unsigned (y.bytes (nameOffset y.type))) ≠ 0 := by
      intro h
      exact hsame (unsigned_inj.mp (verdict_eq_zero.mp h))
    rw [if_pos hne, if_pos hne]
    exact iff_of_true rfl (fun h => absurd h hsame)

def pointerTo (ls : Labels) : Mem :=
  [0, 0, 132, 0, 0, 0, 0, 1, 0, 0, 0, 0, 0, 0, 12, 0, 1, 0, 0, 0, 120, 0,
    UInt8.ofNat (encodeName ls).length] ++ encodeName ls

def pointerRec (ls : Labels) : Rec :=
  ({ data := swapFlags (pointerTo ls), mend := (pointerTo ls).length - 1, cur := (pointerTo ls).length },
    { name := 12, type := tPtr, cls := cIn, ttl := 120, rdlength := (encodeName ls).length, rdata := 23 })

/-- The label `a` is shorter than `bb` and smaller, so that `rr_cmp` goes by the raw data. -/
theorem rrCmp_flat_pointers : ∃ c, rrOrder (pointerRec [[97], [99]]) (pointerRec [[98, 98], [97]]) c ∧
    c = verdict (unsigned ((pointerRec [[97], [99]]).raw [[97], [99]]))
      (unsigned ((pointerRec [[98, 98], [97]]).raw [[98, 98], [97]])) := by
  have ha : (pointerRec [[97], [99]]).Names [[97], [99]] :=
    ⟨.inr (.inl rfl), expands_of_decodeName (show decodeName _ 4 _ = _ by decide)⟩
  have hbb : (pointerRec [[98, 98], [97]]).Names [[98, 98], [97]] :=
    ⟨.inr (.inl rfl), expands_of_decodeName (show decodeName _ 4 _ = _ by decide)⟩
  obtain ⟨c, hc, hflat⟩ := rrCmp_flat_iff ha hbb rfl rfl
  refine ⟨c, hc, hflat.mpr fun _ =>
    shorterFirst_cons.mpr ⟨⟨fun _ => by decide, fun h => absurd h (by decide)⟩, fun h => ?_⟩⟩
  exact absurd h (by decide)

/-- `rr_cmp` on the first answers of two packets. -/
def firstAnswersCmp (fuel : Nat) (p1 p2 : Mem) : Option Int := do
  let m1 ← (mdnsParseMessage fuel p1 p1.length).toOption
  let m2 ← (mdnsParseMessage fuel p2 p2.length).toOption
  let a ← m1.answers[0]?
  let b ← m2.answers[0]?
  rrCmp fuel m1 a m2 b

/-- The label `b` is greater than `aa`, but the raw data of the first record are smaller. -/
theorem rrCmp_not_flat : firstAnswersCmp 10 (pointerTo [[98]]) (pointerTo [[97, 97]]) = some 1 ∧
    verdict (unsigned (slice (pointerTo [[98]]) 23 3)) (unsigned (slice (pointerTo [[97, 97]]) 23 4)) = -1 := by
  refine ⟨by decide +kernel, ?_⟩
  exact (cmpBytes_eq _ _).symm.trans (by decide)

end records

end Mdns
