import Mdns.Dname.Compare
import Mdns.Parse.Safety
import Mdns.Respond.Conflict

/-!
# The tie-break between probes

`recordOrder` is the order that the records of two probes are meant to be compared by. `rr_cmp` is
this order except between the data of two TXT records, where it never finds a smaller byte, and
`authority_set_cmp` sees only the last record of each type.
-/
namespace Mdns
open Lib List

section order

abbrev Rec := Message × Resource

def Rec.cls (x : Rec) : Nat := x.2.cls % 32768

def Rec.type (x : Rec) : Nat := x.2.type

def Rec.bytes (x : Rec) (len : Nat) : List UInt8 := slice x.1.data x.2.rdata len

def Rec.text (x : Rec) : List UInt8 := x.bytes x.2.rdlength

def Rec.target (x : Rec) (off : Nat) : Src × Nat := (.packet x.1.data, x.2.rdata + off)

def byBytes (f : Rec → List UInt8) (x y : Rec) (c : Int) : Prop := cmpBytes (f x) (f y) = c

def byTarget (off : Nat) (x y : Rec) (c : Int) : Prop := nameOrder (x.target off) (y.target off) c

/-- Data of the type `t`, where names are compared as names. -/
def byType (t : Nat) : Rec → Rec → Int → Prop :=
  if t = tA then byBytes (·.bytes 4)
  else if t = tCname ∨ t = tPtr then byTarget 0
  else if t = tSrv then thenBy (byBytes (·.bytes srvFixed)) (byTarget srvFixed)
  else byBytes Rec.text

def dataOrder (x y : Rec) (c : Int) : Prop := x.type = y.type ∧ byType x.type x y c

def recordOrder : Rec → Rec → Int → Prop := thenBy (bySize Rec.cls) (thenBy (bySize Rec.type) dataOrder)

theorem threeWay_byBytes (f : Rec → List UInt8) : ThreeWay (byBytes f) where
  range := fun h => threeWay_cmpBytes.range h
  unique := fun h h' => threeWay_cmpBytes.unique h h'
  symm := fun h => threeWay_cmpBytes.symm h
  trans := fun h h' => threeWay_cmpBytes.trans h h'

theorem threeWay_byTarget (off : Nat) : ThreeWay (byTarget off) where
  range := fun h => threeWay_nameOrder.range h
  unique := fun h h' => threeWay_nameOrder.unique h h'
  symm := fun h => threeWay_nameOrder.symm h
  trans := fun h h' => threeWay_nameOrder.trans h h'

theorem threeWay_byType (t : Nat) : ThreeWay (byType t) := by
  unfold byType
  split_ifs
  · exact threeWay_byBytes _
  · exact threeWay_byTarget 0
  · exact (threeWay_byBytes _).thenBy (threeWay_byTarget srvFixed)
  · exact threeWay_byBytes Rec.text

theorem threeWay_dataOrder : ThreeWay dataOrder := ThreeWay.within threeWay_byType

theorem threeWay_recordOrder : ThreeWay recordOrder :=
  (threeWay_bySize _).thenBy ((threeWay_bySize _).thenBy threeWay_dataOrder)

end order

section texts
variable {u v : List UInt8}

/-- Every byte of the first string has a byte in its place that is not smaller. -/
def Covered : List UInt8 → List UInt8 → Prop
  | [], _ => True
  | _ :: _, [] => False
  | a :: as, b :: bs => a ≤ b ∧ Covered as bs

instance decidableCovered : ∀ u v, Decidable (Covered u v)
  | [], _ => isTrue trivial
  | _ :: _, [] => isFalse id
  | a :: as, b :: bs =>
    have := decidableCovered as bs
    inferInstanceAs (Decidable (a ≤ b ∧ Covered as bs))

theorem Covered.refl (u : List UInt8) : Covered u u := by
  induction u with
  | nil => trivial
  | cons a as ih => exact ⟨UInt8.le_refl a, ih⟩

theorem Covered.trans {w : List UInt8} (h : Covered u v) (h' : Covered v w) : Covered u w := by
  induction u generalizing v w with
  | nil => trivial
  | cons a as ih =>
    cases v with
    | nil => exact h.elim
    | cons b bs =>
      cases w with
      | nil => exact h'.elim
      | cons c cs => exact ⟨UInt8.le_trans h.1 h'.1, ih h.2 h'.2⟩

theorem Covered.length_le (h : Covered u v) : u.length ≤ v.length := by
  induction u generalizing v with
  | nil => exact Nat.zero_le _
  | cons a as ih =>
    cases v with
    | nil => exact h.elim
    | cons b bs => exact Nat.succ_le_succ (ih h.2)

theorem Covered.antisymm (h : Covered u v) (h' : Covered v u) : u = v := by
  induction u generalizing v with
  | nil =>
    cases v with
    | nil => rfl
    | cons b bs => exact h'.elim
  | cons a as ih =>
    cases v with
    | nil => exact h.elim
    | cons b bs => rw [UInt8.le_antisymm h.1 h'.1, ih h.2 h'.2]

theorem txtCmp_eq (u v : List UInt8) :
    txtCmp u v = if Covered u v then (if u.length < v.length then -1 else 0) else 1 := by
  fun_induction txtCmp u v with
  | case1 => simp [Covered]
  | case2 => simp [Covered]
  | case3 => simp [Covered]
  | case4 a as b bs h => simp [Covered, UInt8.not_le.mpr h]
  | case5 a as b bs h h' => exact absurd h' h
  | case6 a as b bs h h' ih => simp [Covered, UInt8.not_lt.mp h, ih]

theorem covered_of_txtCmp (h : txtCmp u v = 0) : Covered u v := by
  by_contra hn
  rw [txtCmp_eq, if_neg hn] at h
  exact absurd h nofun

end texts

section records
variable {x y z : Rec} {c : Int}

/-- `rr_cmp` compares the data of the type byte by byte, TXT being the one such type with a slot. -/
def isText (t : Nat) : Prop := t ≠ tA ∧ t ≠ tCname ∧ t ≠ tPtr ∧ t ≠ tSrv

instance (t : Nat) : Decidable (isText t) := inferInstanceAs (Decidable (_ ∧ _))

def SameText (x y : Rec) : Prop := x.cls = y.cls ∧ x.type = y.type ∧ isText x.type

instance (x y : Rec) : Decidable (SameText x y) := inferInstanceAs (Decidable (_ ∧ _))

theorem SameText.symm (h : SameText x y) : SameText y x := ⟨h.1.symm, h.2.1.symm, h.2.1 ▸ h.2.2⟩

theorem SameText.trans (h : SameText x y) (h' : SameText y z) : SameText x z :=
  ⟨h.1.trans h'.1, h.2.1.trans h'.2.1, h.2.2⟩

/-- What `rr_cmp` comes to. -/
def rrOrder (x y : Rec) (c : Int) : Prop := Comes (fun fuel => rrCmp fuel x.1 x.2 y.1 y.2) (some c)

/-- The data as `rr_cmp` compares them. -/
def sourceData (x y : Rec) (c : Int) : Prop :=
  x.type = y.type ∧ if isText x.type then txtCmp x.text y.text = c else byType x.type x y c

theorem stable_rdataCmp (x y : Rec) : Stable none (fun fuel => rdataCmp fuel x.1 x.2 y.1 y.2) := by
  unfold rdataCmp
  split_ifs
  all_goals first | exact stable_const _ _ | exact stable_dnameCmp _ _ _ _

theorem stable_rrCmp (x y : Rec) : Stable none (fun fuel => rrCmp fuel x.1 x.2 y.1 y.2) := by
  unfold rrCmp
  split_ifs
  all_goals first | exact stable_const _ _ | exact stable_rdataCmp x y

theorem comes_srvCmp :
    Comes (fun fuel =>
      if cmpBytes (x.bytes srvFixed) (y.bytes srvFixed) ≠ 0 then some (cmpBytes (x.bytes srvFixed) (y.bytes srvFixed))
      else dnameCmp fuel (.packet x.1.data) (x.2.rdata + srvFixed) (.packet y.1.data) (y.2.rdata + srvFixed)) (some c) ↔
      thenBy (byBytes (·.bytes srvFixed)) (byTarget srvFixed) x y c := by
  unfold thenBy byBytes byTarget nameOrder Rec.target
  split_ifs with h
  · rw [comes_some_iff]
    constructor
    · rintro rfl
      exact .inl ⟨h, rfl⟩
    · rintro (⟨-, hc⟩ | ⟨hzero, -⟩)
      · exact hc
      · exact absurd hzero h
  · rw [dnameCmp_iff]
    have hzero := not_not.mp h
    constructor
    · intro hc
      exact .inr ⟨hzero, hc⟩
    · rintro (⟨hc, hne⟩ | ⟨-, hc⟩)
      · exact absurd (hne.symm.trans hzero) hc
      · exact hc

theorem comes_rdataCmp (ht : x.type = y.type) :
    Comes (fun fuel => rdataCmp fuel x.1 x.2 y.1 y.2) (some c) ↔ sourceData x y c := by
  unfold rdataCmp sourceData byType
  rw [and_iff_right ht]
  by_cases hA : x.2.type = tA
  · have hnot : ¬ isText x.type := fun h => h.1 hA
    have hA' : x.type = tA := hA
    rw [if_neg hnot, if_pos hA']
    simp only [if_pos hA]
    exact comes_some_iff
  by_cases hname : x.2.type = tCname ∨ x.2.type = tPtr
  · have hnot : ¬ isText x.type := fun h => hname.elim h.2.1 h.2.2.1
    have hname' : x.type = tCname ∨ x.type = tPtr := hname
    rw [if_neg hnot, if_neg (show ¬ x.type = tA from hA), if_pos hname']
    simp only [if_neg hA, if_pos hname]
    exact dnameCmp_iff
  by_cases hsrv : x.2.type = tSrv
  · have hnot : ¬ isText x.type := fun h => h.2.2.2 hsrv
    have hsrv' : x.type = tSrv := hsrv
    rw [if_neg hnot, if_neg (show ¬ x.type = tA from hA), if_neg (show ¬ (x.type = tCname ∨ x.type = tPtr) from hname),
      if_pos hsrv']
    simp only [if_neg hA, if_neg hname, if_pos hsrv]
    exact comes_srvCmp
  · have htext : isText x.type := ⟨hA, fun h => hname (.inl h), fun h => hname (.inr h), hsrv⟩
    rw [if_pos htext]
    simp only [if_neg hA, if_neg hname, if_neg hsrv]
    exact comes_some_iff

theorem comes_ite_size {f : Rec → Nat} {g : Nat → Option Int} {R : Rec → Rec → Int → Prop}
    (hg : f x = f y → (Comes g (some c) ↔ R x y c)) :
    Comes (fun fuel => if f x > f y then some 1 else if f x < f y then some (-1) else g fuel) (some c) ↔
      thenBy (bySize f) R x y c := by
  unfold thenBy bySize
  rcases Nat.lt_trichotomy (f x) (f y) with h | h | h
  · simp only [if_neg (Nat.lt_asymm h), if_pos h, comes_some_iff]
    omega
  · simp only [h, gt_iff_lt, Nat.lt_irrefl, if_false]
    rw [hg h]
    simp
  · simp only [gt_iff_lt, if_pos h, comes_some_iff]
    omega

theorem rrOrder_iff : rrOrder x y c ↔ thenBy (bySize Rec.cls) (thenBy (bySize Rec.type) sourceData) x y c := by
  have hdata := comes_ite_size (f := Rec.type) (comes_rdataCmp (x := x) (y := y) (c := c))
  exact comes_ite_size (f := Rec.cls) (fun _ => hdata)

theorem thenBy_of_eq {f : Rec → Nat} {R : Rec → Rec → Int → Prop} (h : f x = f y) :
    thenBy (bySize f) R x y c ↔ R x y c := by
  simp [thenBy, bySize, h]

theorem rrOrder_text (h : SameText x y) : rrOrder x y c ↔ txtCmp x.text y.text = c := by
  rw [rrOrder_iff, thenBy_of_eq h.1, thenBy_of_eq h.2.1]
  simp only [sourceData, h.2.1, true_and, if_pos (h.2.1 ▸ h.2.2)]

theorem rrOrder_recordOrder (h : ¬ SameText x y) : rrOrder x y c ↔ recordOrder x y c := by
  rw [rrOrder_iff]
  refine thenBy_congr (fun hcls => thenBy_congr (fun htype => ?_))
  have hnot : ¬ isText x.type := fun ht => h ⟨bySize_zero.mp hcls, bySize_zero.mp htype, ht⟩
  simp only [sourceData, dataOrder, if_neg hnot]

theorem rrOrder_range (h : rrOrder x y c) : c = -1 ∨ c = 0 ∨ c = 1 := by
  by_cases ht : SameText x y
  · rw [rrOrder_text ht, txtCmp_eq] at h
    split_ifs at h <;> omega
  · exact threeWay_recordOrder.range ((rrOrder_recordOrder ht).mp h)

theorem rrOrder_unique {d : Int} (h : rrOrder x y c) (h' : rrOrder x y d) : c = d := Option.some.inj (Comes.unique h h')

theorem recordOrder_text (h : SameText x y) : recordOrder x y c ↔ cmpBytes x.text y.text = c := by
  rw [recordOrder, thenBy_of_eq h.1, thenBy_of_eq h.2.1]
  obtain ⟨hA, hcname, hptr, hsrv⟩ := h.2.2
  simp only [dataOrder, h.2.1, true_and]
  rw [← h.2.1, byType, if_neg hA, if_neg (not_or.mpr ⟨hcname, hptr⟩), if_neg hsrv]
  rfl

/-- The verdicts of `rr_cmp` are transitive for these three records. -/
def RrTransitive (x y z : Rec) : Prop := ∀ c, rrOrder x y c → rrOrder y z c → rrOrder x z c

/-- Where all three records are texts, the last one covers the first only by way of the second. -/
def TextsChain (x y z : Rec) : Prop :=
  SameText x y → SameText y z → Covered x.text z.text → Covered x.text y.text ∨ Covered y.text z.text

theorem txtCmp_transitive {u v w : List UInt8} :
    (∀ c, txtCmp u v = c → txtCmp v w = c → txtCmp u w = c) ↔ (Covered u w → Covered u v ∨ Covered v w) := by
  simp only [txtCmp_eq]
  constructor
  · intro h huw
    by_contra hnone
    obtain ⟨huv, hvw⟩ := not_or.mp hnone
    have hone := h 1 (if_neg huv) (if_neg hvw)
    rw [if_pos huw] at hone
    split_ifs at hone
    omega
  · intro h c huv hvw
    by_cases h1 : Covered u v <;> by_cases h2 : Covered v w
    · have := h1.length_le
      have := h2.length_le
      rw [if_pos h1] at huv
      rw [if_pos h2] at hvw
      rw [if_pos (h1.trans h2)]
      split_ifs at huv hvw ⊢ <;> omega
    · rw [if_pos h1] at huv
      rw [if_neg h2] at hvw
      split_ifs at huv <;> omega
    · rw [if_neg h1] at huv
      rw [if_pos h2] at hvw
      split_ifs at hvw <;> omega
    · have huw : ¬ Covered u w := fun huw => (h huw).elim h1 h2
      rw [if_neg huw]
      rwa [if_neg h1] at huv

theorem rrTransitive_iff : RrTransitive x y z ↔ TextsChain x y z := by
  unfold RrTransitive TextsChain
  by_cases htext : SameText x y ∧ SameText y z
  · obtain ⟨hxy, hyz⟩ := htext
    simp only [rrOrder_text hxy, rrOrder_text hyz, rrOrder_text (hxy.trans hyz), hxy, hyz, true_imp_iff]
    exact txtCmp_transitive
  · refine ⟨fun _ hxy hyz => absurd ⟨hxy, hyz⟩ htext, fun _ c hxy hyz => ?_⟩
    rw [rrOrder_iff] at hxy hyz ⊢
    refine (threeWay_bySize _).thenBy_same (fun hcxy hcyz => ?_) hxy hyz
    refine (threeWay_bySize _).thenBy_same (fun htxy htyz => ?_)
    rw [bySize_zero] at hcxy hcyz htxy htyz
    -- one class and one type, so that none of the three is a text
    have hnot : ¬ isText x.type := fun ht => htext ⟨⟨hcxy, htxy, ht⟩, hcyz, htyz, htxy ▸ ht⟩
    simp only [sourceData, if_neg hnot, if_neg (htxy ▸ hnot)]
    exact threeWay_dataOrder.same

end records

section lists
variable {x y : Rec} {xs ys : List Rec} {c : Int}

def ListsAgree (xs ys : List Rec) : Prop := ∃ c, lexBy rrOrder xs ys c ∧ lexBy rrOrder ys xs (-c)

/-- What the lists have to be like, from the first records on. Of two texts, the longer one has to
cover the shorter one. Where they are equally long and differ, one has to cover the other, and the
records that follow have to decide for it. Any other two records have to be comparable. -/
def Fair : List Rec → List Rec → Prop
  | x :: xs, y :: ys =>
    if SameText x y then
      if x.text = y.text then Fair xs ys
      else if x.text.length = y.text.length then
        (Covered x.text y.text ∧ lexBy recordOrder xs ys (-1)) ∨ (Covered y.text x.text ∧ lexBy recordOrder ys xs (-1))
      else Covered x.text y.text ∨ Covered y.text x.text
    else ∃ c, recordOrder x y c ∧ (c = 0 → Fair xs ys)
  | _, _ => True

theorem listsAgree_same (h : rrOrder x y 0) (h' : rrOrder y x 0) :
    ListsAgree (x :: xs) (y :: ys) ↔ ListsAgree xs ys := by
  constructor
  · rintro ⟨c, ⟨hc, hxy⟩ | ⟨-, hrest⟩, hback⟩
    · exact absurd (rrOrder_unique hxy h) hc
    · rcases hback with ⟨hc, hyx⟩ | ⟨-, hrest'⟩
      · exact absurd (rrOrder_unique hyx h') hc
      · exact ⟨c, hrest, hrest'⟩
  · rintro ⟨c, hrest, hrest'⟩
    exact ⟨c, .inr ⟨h, hrest⟩, .inr ⟨h', hrest'⟩⟩

theorem listsAgree_apart {c d : Int} (h : rrOrder x y c) (h' : rrOrder y x d) (hc : c ≠ 0) (hd : d ≠ 0) :
    ListsAgree (x :: xs) (y :: ys) ↔ d = -c := by
  constructor
  · rintro ⟨e, ⟨he, hxy⟩ | ⟨hxy, -⟩, hback⟩
    · rcases hback with ⟨-, hyx⟩ | ⟨hyx, -⟩
      · rw [rrOrder_unique h hxy, rrOrder_unique h' hyx]
      · exact absurd (rrOrder_unique h' hyx) hd
    · exact absurd (rrOrder_unique h hxy) hc
  · rintro rfl
    exact ⟨c, .inl ⟨hc, h⟩, .inl ⟨hd, h'⟩⟩

theorem listsAgree_masked (h : rrOrder x y 0) (h' : rrOrder y x 1) :
    ListsAgree (x :: xs) (y :: ys) ↔ lexBy rrOrder xs ys (-1) := by
  constructor
  · rintro ⟨c, ⟨hc, hxy⟩ | ⟨-, hrest⟩, hback⟩
    · exact absurd (rrOrder_unique hxy h) hc
    · rcases hback with ⟨-, hyx⟩ | ⟨hyx, -⟩
      · have hone := rrOrder_unique hyx h'
        rwa [show c = -1 by omega] at hrest
      · exact absurd (rrOrder_unique hyx h') nofun
  · intro hrest
    exact ⟨-1, .inr ⟨h, hrest⟩, .inl ⟨nofun, h'⟩⟩

theorem ListsAgree.symm (h : ListsAgree xs ys) : ListsAgree ys xs := by
  obtain ⟨c, h1, h2⟩ := h
  exact ⟨-c, h2, by simpa using h1⟩

theorem listsAgree_comm : ListsAgree xs ys ↔ ListsAgree ys xs := ⟨.symm, .symm⟩

def OneText (xs : List Rec) : Prop := xs.Pairwise (fun x x' => isText x.type → ¬ isText x'.type)

theorem lexBy_after_text (hx : OneText (x :: xs)) (ht : isText x.type) :
    lexBy rrOrder xs ys c ↔ lexBy recordOrder xs ys c := by
  refine lexBy_congr (fun x' hx' y' _ c => rrOrder_recordOrder (fun hsame => ?_))
  exact (pairwise_cons.mp hx).1 x' hx' ht hsame.2.2

theorem rrOrder_text_covered (h : SameText x y) (hcov : Covered x.text y.text) (hlen : x.text.length = y.text.length) :
    rrOrder x y 0 := by
  rw [rrOrder_text h, txtCmp_eq, if_pos hcov, if_neg (by omega)]

theorem rrOrder_text_not_covered (h : SameText x y) (hcov : ¬ Covered x.text y.text) : rrOrder x y 1 := by
  rw [rrOrder_text h, txtCmp_eq, if_neg hcov]

theorem rrOrder_text_shorter (h : SameText x y) (hcov : Covered x.text y.text) (hlen : x.text.length ≠ y.text.length) :
    rrOrder x y (-1) := by
  have := hcov.length_le
  rw [rrOrder_text h, txtCmp_eq, if_pos hcov, if_pos (by omega)]

theorem listsAgree_even (h : SameText x y) (hne : x.text ≠ y.text) (hlen : x.text.length = y.text.length)
    (hx : OneText (x :: xs)) (hy : OneText (y :: ys)) :
    ListsAgree (x :: xs) (y :: ys) ↔
      (Covered x.text y.text ∧ lexBy recordOrder xs ys (-1)) ∨
        (Covered y.text x.text ∧ lexBy recordOrder ys xs (-1)) := by
  by_cases hcov : Covered x.text y.text
  · have hback : ¬ Covered y.text x.text := fun h' => hne (hcov.antisymm h')
    rw [listsAgree_masked (rrOrder_text_covered h hcov hlen) (rrOrder_text_not_covered h.symm hback),
      lexBy_after_text hx h.2.2]
    simp only [hcov, hback, true_and, false_and, or_false]
  · by_cases hback : Covered y.text x.text
    · rw [listsAgree_comm,
        listsAgree_masked (rrOrder_text_covered h.symm hback hlen.symm) (rrOrder_text_not_covered h hcov),
        lexBy_after_text hy h.symm.2.2]
      simp only [hcov, hback, true_and, false_and, false_or]
    · rw [listsAgree_apart (rrOrder_text_not_covered h hcov) (rrOrder_text_not_covered h.symm hback) nofun nofun]
      simp [hcov, hback]

theorem listsAgree_uneven (h : SameText x y) (hlen : x.text.length ≠ y.text.length) :
    ListsAgree (x :: xs) (y :: ys) ↔ Covered x.text y.text ∨ Covered y.text x.text := by
  by_cases hcov : Covered x.text y.text
  · have hback : ¬ Covered y.text x.text := fun h' => hlen (Nat.le_antisymm hcov.length_le h'.length_le)
    rw [listsAgree_apart (rrOrder_text_shorter h hcov hlen) (rrOrder_text_not_covered h.symm hback) nofun nofun]
    simp [hcov]
  · by_cases hback : Covered y.text x.text
    · rw [listsAgree_apart (rrOrder_text_not_covered h hcov) (rrOrder_text_shorter h.symm hback hlen.symm) nofun nofun]
      simp [hback]
    · rw [listsAgree_apart (rrOrder_text_not_covered h hcov) (rrOrder_text_not_covered h.symm hback) nofun nofun]
      simp [hcov, hback]

theorem listsAgree_proper (h : ¬ SameText x y) :
    ListsAgree (x :: xs) (y :: ys) ↔ ∃ c, recordOrder x y c ∧ (c = 0 → ListsAgree xs ys) := by
  have hxy : ∀ c, rrOrder x y c ↔ recordOrder x y c := fun c => rrOrder_recordOrder h
  have hyx : ∀ c, rrOrder y x c ↔ recordOrder y x c := fun c => rrOrder_recordOrder (fun h' => h h'.symm)
  constructor
  · intro hagree
    have hsome : ∃ c, recordOrder x y c := by
      obtain ⟨c, ⟨-, hc⟩ | ⟨hzero, -⟩, -⟩ := hagree
      · exact ⟨c, (hxy c).mp hc⟩
      · exact ⟨0, (hxy 0).mp hzero⟩
    obtain ⟨c, hc⟩ := hsome
    refine ⟨c, hc, ?_⟩
    rintro rfl
    exact (listsAgree_same ((hxy 0).mpr hc) ((hyx 0).mpr (threeWay_recordOrder.symm hc))).mp hagree
  · rintro ⟨c, hc, hrest⟩
    have hback := (hyx (-c)).mpr (threeWay_recordOrder.symm hc)
    by_cases hzero : c = 0
    · subst hzero
      exact (listsAgree_same ((hxy 0).mpr hc) hback).mpr (hrest rfl)
    · exact (listsAgree_apart ((hxy c).mpr hc) hback hzero (by omega)).mpr rfl

theorem listsAgree_iff (hx : OneText xs) (hy : OneText ys) : ListsAgree xs ys ↔ Fair xs ys := by
  induction xs generalizing ys with
  | nil =>
    refine ⟨fun _ => by simp [Fair], fun _ => ?_⟩
    cases ys with
    | nil => exact ⟨0, rfl, rfl⟩
    | cons y ys => exact ⟨-1, rfl, rfl⟩
  | cons x xs ih =>
    cases ys with
    | nil => exact ⟨fun _ => by simp [Fair], fun _ => ⟨1, rfl, rfl⟩⟩
    | cons y ys =>
      have hrest := ih (pairwise_cons.mp hx).2 (pairwise_cons.mp hy).2
      unfold Fair
      split_ifs with hsame heq hlen
      · have hcov : Covered x.text y.text := heq ▸ Covered.refl _
        have hback : Covered y.text x.text := heq ▸ Covered.refl _
        rw [listsAgree_same (rrOrder_text_covered hsame hcov (by rw [heq]))
          (rrOrder_text_covered hsame.symm hback (by rw [heq])), hrest]
      · exact listsAgree_even hsame heq hlen hx hy
      · exact listsAgree_uneven hsame hlen
      · rw [listsAgree_proper hsame]
        exact exists_congr (fun c => and_congr_right (fun _ => imp_congr_right (fun _ => hrest)))

theorem rrOrder_zero_iff : (rrOrder x y 0 ∧ rrOrder y x 0) ↔ recordOrder x y 0 := by
  by_cases h : SameText x y
  · rw [rrOrder_text h, rrOrder_text h.symm, recordOrder_text h]
    constructor
    · rintro ⟨hxy, hyx⟩
      rw [(covered_of_txtCmp hxy).antisymm (covered_of_txtCmp hyx), cmpBytes_self]
    · intro heq
      rw [cmpBytes_eq_zero.mp heq]
      simp [txtCmp_eq, Covered.refl]
  · rw [rrOrder_recordOrder h, rrOrder_recordOrder (fun h' => h h'.symm)]
    refine and_iff_left_of_imp (fun hzero => ?_)
    simpa using threeWay_recordOrder.symm hzero

theorem lexBy_zero_iff : (lexBy rrOrder xs ys 0 ∧ lexBy rrOrder ys xs 0) ↔ Forall₂ (recordOrder · · 0) xs ys := by
  simp only [lexBy_zero, rrOrder_zero_iff]

end lists

section slots
variable {rs : List Resource}

def slotTypes : List Nat := [tA, tCname, tPtr, tTxt, tSrv]

def lastOfEach (rs : List Resource) : List Resource := slotTypes.filterMap (fun t => (rs.filter (·.type = t)).getLast?)

theorem lastOfType_concat (rs : List Resource) (r : Resource) (t : Nat) :
    ((rs ++ [r]).filter (·.type = t)).getLast? = if r.type = t then some r else (rs.filter (·.type = t)).getLast? := by
  rw [filter_append]
  split_ifs with h <;> simp [h]

def lastSlots (rs : List Resource) : Slots :=
  { a := (rs.filter (·.type = tA)).getLast?, cname := (rs.filter (·.type = tCname)).getLast?
    ptr := (rs.filter (·.type = tPtr)).getLast?, txt := (rs.filter (·.type = tTxt)).getLast?
    srv := (rs.filter (·.type = tSrv)).getLast? }

theorem add_lastSlots (rs : List Resource) (r : Resource) (n : Nat) :
    Slots.add (lastSlots rs, n) r = (lastSlots (rs ++ [r]), n + if r.type ∈ slotTypes then 1 else 0) := by
  unfold Slots.add lastSlots slotTypes
  simp only [lastOfType_concat]
  split_ifs with h1 h2 h3 h4 h5 h6
  all_goals simp_all [tA, tCname, tPtr, tTxt, tSrv]

theorem foldl_slots (rs : List Resource) :
    rs.foldl Slots.add ({}, 0) = (lastSlots rs, rs.countP (·.type ∈ slotTypes)) := by
  induction rs using List.reverseRecOn with
  | nil => rfl
  | append_singleton rs r ih => rw [foldl_concat, ih, add_lastSlots, countP_append, countP_singleton]; simp

theorem mem_lastOfEach {r : Resource} (h : r ∈ lastOfEach rs) : r ∈ rs ∧ r.type ∈ slotTypes := by
  obtain ⟨t, ht, hr⟩ := mem_filterMap.mp h
  obtain ⟨hmem, htype⟩ := mem_filter.mp (mem_of_getLast? hr)
  exact ⟨hmem, of_decide_eq_true htype ▸ ht⟩

theorem lastOfEach_eq_nil (h : rs.countP (·.type ∈ slotTypes) = 0) : lastOfEach rs = [] := by
  refine eq_nil_iff_forall_not_mem.mpr (fun r hr => ?_)
  obtain ⟨hmem, htype⟩ := mem_lastOfEach hr
  exact countP_eq_zero.mp h r hmem (decide_eq_true htype)

theorem oneText_lastOfEach (m : Message) (rs : List Resource) : OneText ((lastOfEach rs).map (m, ·)) := by
  unfold OneText lastOfEach
  rw [pairwise_map, pairwise_filterMap]
  have htypes : slotTypes.Pairwise (fun t t' => isText t → ¬ isText t') := by decide
  refine htypes.imp (fun {t t'} htt r hr r' hr' => ?_)
  have ht := (mem_filter.mp (mem_of_getLast? hr)).2
  have ht' := (mem_filter.mp (mem_of_getLast? hr')).2
  simp only [decide_eq_true_eq] at ht ht'
  show isText r.type → ¬ isText r'.type
  rw [ht, ht']
  exact htt

end slots

section sets
variable {p p1 p2 : Message} {name : Mem} {ls : Labels} {c : Int}

open Classical in
noncomputable def Message.under (p : Message) (ls : Labels) : List Resource :=
  p.authorities.filter (fun r => Expands (.packet p.data) r.name ls)

/-- The records that `authority_set_cmp` gets to see. -/
noncomputable def Message.proposed (p : Message) (ls : Labels) : List Rec := (lastOfEach (p.under ls)).map (p, ·)

def Parsed (p : Message) : Prop := ∃ fuel data mlen, mdnsParseMessage fuel data mlen = .ok p

theorem Parsed.expands (h : Parsed p) {r : Resource} (hr : r ∈ p.records) :
    ∃ ls, Expands (.packet p.data) r.name ls := by
  obtain ⟨fuel, data, mlen, hf⟩ := h
  obtain ⟨hscan, hends⟩ := mdnsParseMessage_ok_iff.mp ⟨fuel, hf⟩
  have hmem : r.name ∈ nameFields data mlen :=
    (scanPacket_covers hscan).2 r hr (mem_cons_self)
  rw [(scanPacket_data hscan).2]
  exact (hends _ hmem).expands

open Classical in
theorem findAuthorities_comes (hname : Expands (.plain name) 0 ls) {rs : List Resource}
    (hrs : ∀ r ∈ rs, ∃ ls', Expands (.packet p.data) r.name ls') (slots : Slots × Nat) :
    Comes (fun fuel => findAuthorities fuel p name rs slots)
      (some ((rs.filter (fun r => Expands (.packet p.data) r.name ls)).foldl Slots.add slots)) := by
  induction rs generalizing slots with
  | nil => exact comes_const _
  | cons r rs ih =>
    obtain ⟨ls', hls⟩ := hrs r (.head _)
    refine comes_bind_some (dnameCmp_comes hls hname) ?_
    have hrest := fun slots => ih (fun r' hr' => hrs r' (.tail _ hr')) slots
    by_cases heq : cmpLabels ls' ls = 0
    · have hunder : Expands (.packet p.data) r.name ls := cmpLabels_eq_zero.mp heq ▸ hls
      simp only [if_pos heq, filter_cons, hunder, decide_true, if_true, foldl_cons]
      exact hrest _
    · have hunder : ¬ Expands (.packet p.data) r.name ls := fun h => heq (cmpLabels_eq_zero.mpr (hls.unique h))
      simp only [if_neg heq, filter_cons, hunder, decide_false]
      exact hrest _

theorem findAuthorities_under (hp : Parsed p) (hname : Expands (.plain name) 0 ls) :
    Comes (fun fuel => findAuthorities fuel p name p.authorities ({}, 0))
      (some (lastSlots (p.under ls), (p.under ls).countP (·.type ∈ slotTypes))) := by
  rw [← foldl_slots]
  exact findAuthorities_comes hname (fun r hr => hp.expands (mem_append_right _ hr)) _

theorem comes_recordsCmp {rs1 rs2 : List Resource} :
    Comes (fun fuel => recordsCmp fuel p1 p2 rs1 rs2) (some c) ↔
      lexBy rrOrder (rs1.map (p1, ·)) (rs2.map (p2, ·)) c := by
  induction rs1 generalizing rs2 with
  | nil =>
    cases rs2 with
    | nil => exact comes_some_iff.trans eq_comm
    | cons r2 rs2 => exact comes_some_iff.trans eq_comm
  | cons r1 rs1 ih =>
    cases rs2 with
    | nil => exact comes_some_iff.trans eq_comm
    | cons r2 rs2 =>
      refine (comes_bind_iff (stable_rrCmp (p1, r1) (p2, r2))).trans ?_
      simp only [map_cons, lexBy, ← ih]
      constructor
      · rintro ⟨ret, hret, hc⟩
        by_cases hzero : ret = 0
        · subst hzero
          exact .inr ⟨hret, hc⟩
        · simp only [ne_eq, hzero, not_false_eq_true, if_true] at hc
          obtain rfl := comes_some_iff.mp hc
          exact .inl ⟨hzero, hret⟩
      · rintro (⟨hne, hret⟩ | ⟨hret, hc⟩)
        · refine ⟨c, hret, ?_⟩
          simp only [ne_eq, hne, not_false_eq_true, if_true]
          exact comes_some_iff.mpr rfl
        · exact ⟨0, hret, hc⟩

theorem comes_authoritySetCmp (h1 : Parsed p1) (h2 : Parsed p2) (hname : Expands (.plain name) 0 ls) :
    Comes (fun fuel => authoritySetCmp fuel p1 p2 name) (some c) ↔
      lexBy rrOrder (p1.proposed ls) (p2.proposed ls) c := by
  refine (comes_bind_back (findAuthorities_under h1 hname)).trans ?_
  refine (comes_bind_back (findAuthorities_under h2 hname)).trans ?_
  dsimp only
  split_ifs with hnone
  · rw [Message.proposed, Message.proposed, lastOfEach_eq_nil hnone.1, lastOfEach_eq_nil hnone.2]
    exact comes_some_iff.trans eq_comm
  · exact comes_recordsCmp

/-- The records under the name that have a slot are the same in both probes. -/
def SameRecords (p1 p2 : Message) (ls : Labels) : Prop :=
  (∀ r ∈ p1.under ls, r.type ∈ slotTypes → ∃ r' ∈ p2.under ls, recordOrder (p1, r) (p2, r') 0) ∧
    ∀ r' ∈ p2.under ls, r'.type ∈ slotTypes → ∃ r ∈ p1.under ls, recordOrder (p1, r) (p2, r') 0

/-- The two hosts come to one decision, and to none only about the same records. -/
def Agrees (p1 p2 : Message) (name : Mem) (ls : Labels) : Prop :=
  ∃ c : Int, (c = -1 ∨ c = 0 ∨ c = 1) ∧ Comes (fun fuel => authoritySetCmp fuel p1 p2 name) (some c) ∧
    Comes (fun fuel => authoritySetCmp fuel p2 p1 name) (some (-c)) ∧ (c = 0 → SameRecords p1 p2 ls)

/-- Where the last records of each type are the same, so are the earlier ones. -/
def LastDecide (p1 p2 : Message) (ls : Labels) : Prop :=
  Forall₂ (recordOrder · · 0) (p1.proposed ls) (p2.proposed ls) → SameRecords p1 p2 ls

theorem agrees_iff (h1 : Parsed p1) (h2 : Parsed p2) (hname : Expands (.plain name) 0 ls) :
    Agrees p1 p2 name ls ↔ Fair (p1.proposed ls) (p2.proposed ls) ∧ LastDecide p1 p2 ls := by
  unfold Agrees
  simp only [comes_authoritySetCmp h1 h2 hname, comes_authoritySetCmp h2 h1 hname]
  have hlists : ListsAgree (p1.proposed ls) (p2.proposed ls) ↔ Fair (p1.proposed ls) (p2.proposed ls) :=
    listsAgree_iff (oneText_lastOfEach _ _) (oneText_lastOfEach _ _)
  rw [← hlists]
  constructor
  · rintro ⟨c, -, h12, h21, hsame⟩
    refine ⟨⟨c, h12, h21⟩, fun hzero => hsame ?_⟩
    obtain ⟨hz, -⟩ := lexBy_zero_iff.mpr hzero
    rw [← comes_authoritySetCmp h1 h2 hname] at h12 hz
    exact Option.some.inj (Comes.unique h12 hz)
  · rintro ⟨⟨c, h12, h21⟩, hlast⟩
    refine ⟨c, lexBy_range rrOrder_range h12, h12, h21, ?_⟩
    rintro rfl
    exact hlast (lexBy_zero_iff.mp ⟨h12, h21⟩)

/-- The tie-break is one decision and `rr_cmp` is transitive exactly where texts cover each other and
the last records of each type stand for all. -/
theorem authoritySetCmp_agrees (h1 : Parsed p1) (h2 : Parsed p2) (hname : Expands (.plain name) 0 ls) (x y z : Rec) :
    (Agrees p1 p2 name ls ∧ RrTransitive x y z) ↔
      (Fair (p1.proposed ls) (p2.proposed ls) ∧ LastDecide p1 p2 ls) ∧ TextsChain x y z :=
  and_congr (agrees_iff h1 h2 hname) rrTransitive_iff

/-- A probe for the name `a` with one TXT record. -/
def textProbe (text : List UInt8) : Mem :=
  [0, 0, 0, 0, 0, 1, 0, 0, 0, 1, 0, 0] ++ [1, 97, 0, 0, 255, 0, 1] ++
    [0xc0, 12, 0, 16, 0, 1, 0, 0, 0, 120, 0, UInt8.ofNat text.length] ++ text

def textRecord (text : List UInt8) : Resource :=
  { name := 19, type := tTxt, cls := cIn, ttl := 120, rdlength := text.length, rdata := 31 }

def textMessage (text : List UInt8) : Message :=
  { data := textProbe text, mend := 30 + text.length, cur := 31 + text.length
    numQuestions := 1, numAuthorities := 1
    questions := [{ qname := 12, qtype := tAny, qclass := cIn }]
    authorities := [textRecord text]
    txts := [textRecord text] }

theorem parsed_b1 : Parsed (textMessage [3, 98, 61, 49]) := ⟨5, textProbe [3, 98, 61, 49], 35, by decide +kernel⟩

theorem parsed_a2 : Parsed (textMessage [3, 97, 61, 50]) := ⟨5, textProbe [3, 97, 61, 50], 35, by decide +kernel⟩

theorem parsed_b22 : Parsed (textMessage [4, 98, 61, 50, 50]) :=
  ⟨5, textProbe [4, 98, 61, 50, 50], 36, by decide +kernel⟩

theorem expands_a : Expands (.plain (encodeName [[97]])) 0 [[97]] :=
  expands_of_decodeName (show decodeName (.plain (encodeName [[97]])) 3 0 = some [[97]] by decide +kernel)

theorem proposed_textMessage {text : List UInt8} (h : decodeName (.packet (textProbe text)) 4 19 = some [[97]]) :
    (textMessage text).proposed [[97]] = [(textMessage text, textRecord text)] := by
  have hexp : Expands (.packet (textMessage text).data) (textRecord text).name [[97]] := expands_of_decodeName h
  have hunder : (textMessage text).under [[97]] = [textRecord text] := by
    unfold Message.under
    rw [show (textMessage text).authorities = [textRecord text] from rfl, filter_singleton]
    simp only [hexp, decide_true, cond_true]
  rw [Message.proposed, hunder]
  rfl

/-- The texts `b=1` and `a=2`: either host finds the other's records greater, so that both rename. -/
theorem authoritySetCmp_both_greater :
    Parsed (textMessage [3, 98, 61, 49]) ∧ Parsed (textMessage [3, 97, 61, 50]) ∧
      authoritySetCmp 5 (textMessage [3, 98, 61, 49]) (textMessage [3, 97, 61, 50]) (encodeName [[97]]) = some 1 ∧
      authoritySetCmp 5 (textMessage [3, 97, 61, 50]) (textMessage [3, 98, 61, 49]) (encodeName [[97]]) = some 1 ∧
      ¬ Agrees (textMessage [3, 98, 61, 49]) (textMessage [3, 97, 61, 50]) (encodeName [[97]]) [[97]] := by
  refine ⟨parsed_b1, parsed_a2, by decide +kernel, by decide +kernel, fun hagree => ?_⟩
  have hfair := ((agrees_iff parsed_b1 parsed_a2 expands_a).mp hagree).1
  rw [proposed_textMessage (by decide +kernel), proposed_textMessage (by decide +kernel), Fair,
    if_pos (by decide +kernel),
    if_neg (by decide +kernel), if_pos (by decide +kernel)] at hfair
  rcases hfair with ⟨hcov, -⟩ | ⟨hcov, -⟩
  · exact absurd hcov (by decide +kernel)
  · exact absurd hcov (by decide +kernel)

/-- With `b=1` against `b=22` the shorter text gives way. -/
theorem authoritySetCmp_agrees_b22 :
    Agrees (textMessage [3, 98, 61, 49]) (textMessage [4, 98, 61, 50, 50]) (encodeName [[97]]) [[97]] ∧
      RrTransitive (textMessage [3, 98, 61, 49], textRecord [3, 98, 61, 49])
        (textMessage [4, 98, 61, 50, 50], textRecord [4, 98, 61, 50, 50]) (textMessage [3, 97, 61, 50],
          textRecord [3, 97, 61, 50]) := by
  refine (authoritySetCmp_agrees parsed_b1 parsed_b22 expands_a _ _ _).mpr ⟨⟨?_, fun hsame => ?_⟩, fun _ _ hcov => ?_⟩
  · rw [proposed_textMessage (by decide +kernel), proposed_textMessage (by decide +kernel), Fair,
      if_pos (by decide +kernel),
      if_neg (by decide +kernel), if_neg (by decide +kernel)]
    exact .inl (by decide +kernel)
  · rw [proposed_textMessage (by decide +kernel), proposed_textMessage (by decide +kernel)] at hsame
    cases hsame with
    | cons hhead _ => exact absurd ((recordOrder_text (by decide +kernel)).mp hhead) (by decide +kernel)
  · exact absurd hcov (by decide +kernel)

end sets

end Mdns
