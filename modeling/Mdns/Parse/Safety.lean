import Mdns.Parse.Termination

/-!
# What an accepted packet promises

The parser asks `dname_overrun` about the names of questions and records and about the first data
byte of PTR and SRV records. The consumers also walk the target of an SRV record, six bytes into its
data, and the data of a CNAME record.
-/
namespace Mdns
open Lib List

variable {m : Message} {data : Mem} {mlen : Nat}

def Question.checked (q : Question) : List Nat := [q.qname]

def Resource.checked (r : Resource) : List Nat :=
  r.name :: if r.type = tSrv ∨ r.type = tPtr then [r.rdata] else []

def Resource.walked (r : Resource) : List Nat :=
  r.name :: if r.type = tPtr ∨ r.type = tCname then [r.rdata]
    else if r.type = tSrv then [r.rdata + 6] else []

def Message.records (m : Message) : List Resource := m.answers ++ m.authorities

/-- What is left to ask of a name that `dname_overrun` has accepted, and of one that it was
never asked about. -/
def AskedSound (p : Mem) (e n : Nat) : Prop := ¬ CutPointer p e n

def UnaskedSound (p : Mem) (e n : Nat) : Prop := ¬ RunsOut p e n ∧ ¬ Loops p e n ∧ ¬ CutPointer p e n

def Message.Sound (p : Mem) (e : Nat) (m : Message) : Prop :=
  (∀ q ∈ m.questions, AskedSound p e q.qname) ∧
  ∀ r ∈ m.records, AskedSound p e r.name ∧
    (r.type = tPtr → AskedSound p e r.rdata) ∧
    (r.type = tCname → UnaskedSound p e r.rdata) ∧
    (r.type = tSrv → 7 ≤ r.rdlength ∧ UnaskedSound p e (r.rdata + 6))

section
variable {α β : Type}

/-- A layout whose entries have all their checked names among its name fields. -/
def Covers (checked : β → List Nat) (s : Scan α) (entries : α → List β) : Prop :=
  ∀ a, s.result = some a → ∀ b ∈ entries a, checked b ⊆ s.fields

theorem andThen_fields {s : Scan α} {t : α → Scan β} {a : α} (h : s.result = some a) :
    (s.andThen t).fields = s.fields ++ (t a).fields := by
  simp only [Scan.andThen, h]

theorem covers_scanMany {checked : β → List Nat} {scan : Message → Scan (β × Message)}
    (hs : ∀ m, Covers checked (scan m) (fun x => [x.1])) (n : Nat) (m : Message) :
    Covers checked (scanMany scan n m) Prod.fst := by
  induction n generalizing m with
  | zero =>
    intro x hx b hb
    cases hx
    cases hb
  | succ n ih =>
    intro x hx b hb
    obtain ⟨y, hy, hx⟩ := andThen_result hx
    obtain ⟨z, hz, hx⟩ := andThen_result hx
    cases hx
    rw [scanMany, andThen_fields hy, andThen_fields hz]
    rcases mem_cons.mp hb with rfl | hb
    · exact fun k hk => mem_append_left _ (hs m y hy _ (mem_singleton.mpr rfl) hk)
    · exact fun k hk => mem_append_right _ (mem_append_left _ (ih y.2 z hz b hb hk))

end

theorem scanName_fields {m' : Message} (h : (scanName m).result = some m') :
    (scanName m).fields = [m.cur] := by
  unfold scanName at h ⊢
  split at h
  · cases h
  · rfl

theorem covers_scanQuestion (m : Message) :
    Covers Question.checked (scanQuestion m) (fun x => [x.1]) := by
  intro x hx q hq
  obtain ⟨m', hm', hx⟩ := andThen_result hx
  rw [scanQuestion, andThen_fields hm', scanName_fields hm']
  obtain ⟨-, hx⟩ := need_result hx
  cases hx
  rw [mem_singleton.mp hq]
  exact subset_append_left _ _

theorem scanRdata_fields (r : Resource) :
    (scanRdata r).fields = if r.type = tSrv ∨ r.type = tPtr then [r.rdata] else [] := by
  unfold scanRdata
  by_cases ha : r.type = tA
  · have hn : ¬ (r.type = tSrv ∨ r.type = tPtr) := by rw [ha]; decide
    rw [if_pos ha, if_neg hn, Scan.need]
    split <;> rfl
  · rw [if_neg ha]
    split <;> rfl

theorem covers_scanResource (m : Message) :
    Covers Resource.checked (scanResource m) (fun x => [x.1]) := by
  intro x hx r hr
  obtain ⟨m', hm', hx⟩ := andThen_result hx
  rw [scanResource, andThen_fields hm', scanName_fields hm']
  obtain ⟨hc, hx⟩ := need_result hx
  obtain ⟨hc', hx⟩ := need_result hx
  obtain ⟨_, hd, hx⟩ := andThen_result hx
  cases hx
  rw [mem_singleton.mp hr]
  dsimp only
  rw [Scan.need, if_pos hc, Scan.need, if_pos hc', andThen_fields hd, scanRdata_fields]
  exact cons_subset_cons _ (subset_append_left _ _)

theorem scanPacket_sections (h : (scanPacket data mlen).result = some m) :
    ∃ x y z, (scanMany scanQuestion (startMessage data mlen).numQuestions (startMessage data mlen)).result = some x ∧
      (scanMany scanResource x.2.numAnswers { x.2 with questions := x.1 }).result = some y ∧
      (scanMany scanResource y.2.numAuthorities { y.2 with answers := y.1 }).result = some z ∧
      headerSize ≤ mlen ∧ m = { z.2 with authorities := z.1 } ∧
      nameFields data mlen =
        (scanMany scanQuestion (startMessage data mlen).numQuestions (startMessage data mlen)).fields ++
        ((scanMany scanResource x.2.numAnswers { x.2 with questions := x.1 }).fields ++
        (scanMany scanResource y.2.numAuthorities { y.2 with answers := y.1 }).fields) := by
  unfold nameFields
  unfold scanPacket at h ⊢
  obtain ⟨hlen, h⟩ := need_result h
  obtain ⟨hop, h⟩ := need_result h
  obtain ⟨x, hx, h⟩ := andThen_result h
  obtain ⟨y, hy, h⟩ := andThen_result h
  obtain ⟨z, hz, h⟩ := andThen_result h
  cases h
  refine ⟨x, y, z, hx, hy, hz, hlen, rfl, ?_⟩
  simp only [Scan.need, if_pos hlen, if_pos hop, andThen_fields hx, andThen_fields hy, andThen_fields hz,
    Scan.done, append_nil]

theorem scanPacket_data (h : (scanPacket data mlen).result = some m) :
    headerSize ≤ mlen ∧ m.data = swapFlags data := by
  obtain ⟨x, y, z, hx, hy, hz, hlen, rfl, -⟩ := scanPacket_sections h
  have hx := scanMany_kept (fun _ _ => scanQuestion_kept) hx
  have hy := scanMany_kept (fun _ _ => scanResource_kept) hy
  have hz := scanMany_kept (fun _ _ => scanResource_kept) hz
  exact ⟨hlen, hz.data.trans (hy.data.trans hx.data)⟩

theorem scanPacket_covers (h : (scanPacket data mlen).result = some m) :
    (∀ q ∈ m.questions, q.checked ⊆ nameFields data mlen) ∧
      ∀ r ∈ m.records, r.checked ⊆ nameFields data mlen := by
  obtain ⟨x, y, z, hx, hy, hz, -, rfl, hfields⟩ := scanPacket_sections h
  have hky := scanMany_kept (fun _ _ => scanResource_kept) hy
  have hkz := scanMany_kept (fun _ _ => scanResource_kept) hz
  rw [hfields]
  constructor
  · intro q hq
    rw [show q ∈ z.2.questions ↔ q ∈ x.1 by rw [hkz.questions, hky.questions]] at hq
    exact subset_append_of_subset_left _ (covers_scanMany covers_scanQuestion _ _ x hx q hq)
  · intro r hr
    refine subset_append_of_subset_right _ ?_
    rcases mem_append.mp hr with hr | hr
    · rw [show r ∈ z.2.answers ↔ r ∈ y.1 by rw [hkz.answers]] at hr
      exact subset_append_of_subset_left _ (covers_scanMany covers_scanResource _ _ y hy r hr)
    · exact subset_append_of_subset_right _ (covers_scanMany covers_scanResource _ _ z hz r hr)

/-- A response with one SRV record of priority zero whose target is a pointer to itself. -/
def selfTarget : Mem :=
  [0, 0, 0x84, 0, 0, 0, 0, 1, 0, 0, 0, 0] ++ [0, 0, 33, 0, 1, 0, 0, 0, 120, 0, 8] ++ [0, 0, 0, 0, 0, 80, 0xC0, 29]

def selfTargetSrv : Resource := { name := 12, type := tSrv, cls := cIn, ttl := 120, rdlength := 8, rdata := 23 }

def selfTargetMessage : Message :=
  { data := swapFlags selfTarget, mend := 30, cur := 31, numAnswers := 1, answers := [selfTargetSrv],
    srvs := [selfTargetSrv] }

end Mdns
