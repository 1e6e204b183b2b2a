import Mdns.Parse.Safety
import Mdns.Query.Split

/-!
# What the consumers walk

`rr_cmp`, `update_srv` and `update_service_cache` walk the names of a message, and none of the
walkers knows where the packet ends. `dname_copy` goes on behind a zero byte that a pointer has led
to, and `copy_servinfo` behind a name of one label.
-/
namespace Mdns
open Lib

/-- The call comes to something in which no byte behind the packet has a part. -/
def KeepsInside {α : Type} (p : Mem) (mlen : Nat) (call : Nat → Mem → Option α) : Prop :=
  ∃ a, ∀ q, Agree mlen p q → Comes (fun fuel => call fuel q) (some a)

section names
variable {p : Mem} {e n : Nat}

/-- No pointer leads to the zero byte of the name, unless it is too long for `dname_copy`. -/
def Copyable (p : Mem) (e n : Nat) : Prop := ∀ ls z, Spells p e false n ls true z → maxNameLen < (encodeName ls).length

def SeveralLabels (p : Mem) (n : Nat) : Prop := ∀ ls, Expands (.packet p) n ls → 2 ≤ ls.length

/-- A name that `dname_copy` gives up, or one that ends behind a label. -/
theorem Copyable.cases (hc : Copyable p e n) (h : SafeName p (e + 1) n) :
    ∃ ls d z, Spells p e false n ls d z ∧
      (maxNameLen < (encodeName ls).length ∨ d = false ∧ (encodeName ls).length ≤ maxNameLen) := by
  obtain ⟨ls, d, z, hs⟩ := h.spells false
  refine ⟨ls, d, z, hs, ?_⟩
  cases d with
  | true => exact .inl (hc ls z hs)
  | false => exact (Nat.lt_or_ge maxNameLen _).imp id (fun hfits => ⟨rfl, hfits⟩)

theorem Copyable.copy (hc : Copyable p e n) (h : SafeName p (e + 1) n) :
    KeepsInside p (e + 1) (fun fuel p => dnameCopy fuel p n) := by
  obtain ⟨ls, d, z, hs, hlong | ⟨rfl, hfits⟩⟩ := hc.cases h
  · exact ⟨_, fun q hq => (hs.agree hq).copy_long (by decide) (by simpa using hlong)⟩
  · exact ⟨_, fun q hq => (hs.agree hq).copy rfl (by simpa using hfits)⟩

theorem Copyable.servinfo {a b : Nat} (hc : Copyable p e n) (h : SafeName p (e + 1) n) (hls : SeveralLabels p n)
    (i : ServiceInstance a b) (m : Message) :
    KeepsInside p (e + 1) (fun fuel p => copyServinfo fuel i { m with data := p } n) := by
  obtain ⟨ls, d, z, hs, hlong | ⟨rfl, hfits⟩⟩ := hc.cases h
  · refine ⟨none, fun q hq => ?_⟩
    obtain ⟨out, hout⟩ :=
      @Spells.copyReads_long q e n z false d _ [] (hs.agree hq) (by decide) (.inl (by simpa using hlong))
    exact (does_servinfo_uncopied hout).erased (fun fuel => erases_servinfoReads fuel i { m with data := q } n)
  · match ls, hls ls hs.expands with
    | l :: label :: ls, _ =>
      exact ⟨_, fun q hq => ((hs.agree hq).servinfo hfits nofun).erased
        (fun fuel => erases_servinfoReads fuel i { m with data := q } n)⟩

theorem SeveralLabels.next (hls : SeveralLabels p n) (h : SafeName p (e + 1) n) {s : Src} {k : Nat}
    {ls' : Labels} (hk : Expands s k ls') :
    KeepsInside p (e + 1) (fun fuel p => dnameLabelNext fuel (.packet p) n >>= fun next =>
      next >>= fun off => dnameCmp fuel s k (.packet p) off) := by
  obtain ⟨ls, d, z, hs⟩ := h.spells false
  match ls, hls ls hs.expands with
  | l :: label :: ls, _ =>
    refine ⟨cmpLabels ls' (label :: ls), fun q hq => ?_⟩
    obtain ⟨n', hdoes, hs'⟩ := (hs.agree hq).labelNext
    exact comes_bind_some (hdoes.erased (fun fuel => erases_labelNextReads q fuel ⟨n, false⟩))
      (dnameCmp_comes hk hs'.expands)

end names

end Mdns
