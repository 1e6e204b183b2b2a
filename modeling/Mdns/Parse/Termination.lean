import Mdns.Parse.Follow

/-!
# When the parser returns

`dname_overrun` keeps no count of the pointers it follows. The parser returns on exactly those
packets in which no chain that comes back to where it was is met before a name that is rejected.
-/
namespace Mdns
open Lib

theorem stable_takeName (m : Message) : Stable (.error .hang) (fun fuel => takeName fuel m) := by
  refine stable_bind (stable_await (stable_loop _ _)) (fun len => ?_)
  split
  · exact stable_const _ _
  · refine stable_bind (stable_const _ _) (fun _ => ?_)
    exact stable_bind (stable_await (stable_loop _ _)) (fun _ => stable_const _ _)

theorem stable_parseQuestion (m : Message) : Stable (.error .hang) (fun fuel => parseQuestion fuel m) :=
  stable_bind (stable_takeName m) (fun _ => stable_const _ _)

theorem stable_checkRdata (m : Message) (r : Resource) :
    Stable (.error .hang) (fun fuel => checkRdata fuel m r) := by
  unfold checkRdata
  split
  · exact stable_const _ _
  · split
    · exact stable_bind (stable_await (stable_loop _ _)) (fun _ => stable_const _ _)
    · exact stable_const _ _

theorem stable_parseResource (m : Message) : Stable (.error .hang) (fun fuel => parseResource fuel m) := by
  refine stable_bind (stable_takeName m) (fun m' => ?_)
  refine stable_bind (stable_const _ _) (fun _ => ?_)
  refine stable_bind (stable_const _ _) (fun _ => ?_)
  exact stable_bind (stable_checkRdata _ _) (fun _ => stable_const _ _)

theorem stable_parseMany {α : Type} {parse : Nat → Message → Res (α × Message)}
    (hp : ∀ m, Stable (.error .hang) (fun fuel => parse fuel m)) (n : Nat) (m : Message) :
    Stable (.error .hang) (fun fuel => parseMany (parse fuel) n m) := by
  induction n generalizing m with
  | zero => exact stable_const _ _
  | succ n ih => exact stable_bind (hp m) (fun x => stable_bind (ih x.2) (fun _ => stable_const _ _))

theorem stable_mdnsParseMessage (data : Mem) (mlen : Nat) :
    Stable (.error .hang) (fun fuel => mdnsParseMessage fuel data mlen) := by
  unfold mdnsParseMessage
  split
  · exact stable_const _ _
  · dsimp only
    split
    · exact stable_const _ _
    · refine stable_bind (stable_parseMany stable_parseQuestion _ _) (fun x => ?_)
      refine stable_bind (stable_parseMany stable_parseResource _ _) (fun y => ?_)
      exact stable_bind (stable_parseMany stable_parseResource _ _) (fun _ => stable_const _ _)

theorem mdnsParseMessage_ok_iff {data : Mem} {mlen : Nat} {m : Message} :
    (∃ fuel, mdnsParseMessage fuel data mlen = .ok m) ↔
      (scanPacket data mlen).result = some m ∧ ∀ n ∈ nameFields data mlen, Ends (swapFlags data) (mlen - 1) n := by
  rw [(stable_mdnsParseMessage data mlen).returns_iff (mdnsParseMessage_comes data mlen) (by simp), outcome_eq_ok]
  rfl

/-- No chain that circles starts at a name field before one that is rejected. -/
def NoCycle (p : Mem) (e : Nat) : List Nat → Prop
  | [] => True
  | n :: ns => ¬ Cyclic p e n ∧ (Ends p e n → NoCycle p e ns)

theorem verdicts_eq_hang {p : Mem} {e : Nat} {ns : List Nat} :
    verdicts p e ns = .error .hang ↔ ¬ NoCycle p e ns := by
  induction ns with
  | nil => simp [verdicts, NoCycle]
  | cons n ns ih =>
    simp only [verdicts, NoCycle]
    by_cases he : Ends p e n
    · simp only [he, he.not_cyclic, if_true, not_false_eq_true, true_and, forall_const]
      exact ih
    · by_cases hc : Cyclic p e n <;> simp [he, hc]

theorem outcome_eq_hang {p : Mem} {e : Nat} {α : Type} (s : Scan α) :
    s.outcome p e = .error .hang ↔ ¬ NoCycle p e s.fields := by
  rw [← verdicts_eq_hang]
  unfold Scan.outcome
  cases verdicts p e s.fields with
  | error x => exact ⟨fun h => by cases h; rfl, fun h => by cases h; rfl⟩
  | ok u => cases s.result <;> exact ⟨fun h => (nomatch h), fun h => (nomatch h)⟩

theorem noCycle_iff {data : Mem} {mlen : Nat} : (∃ fuel, mdnsParseMessage fuel data mlen ≠ .error .hang) ↔
    NoCycle (swapFlags data) (mlen - 1) (nameFields data mlen) := by
  rw [(stable_mdnsParseMessage data mlen).back_iff (mdnsParseMessage_comes data mlen), Ne, outcome_eq_hang, not_not]
  rfl

/-- `mdns_parse_message` returns exactly on the packets without such a chain. -/
theorem mdnsParseMessage_returns_iff (data : Mem) (mlen : Nat) :
    (∃ fuel, mdnsParseMessage fuel data mlen ≠ .error .hang) ↔
      NoCycle (swapFlags data) (mlen - 1) (nameFields data mlen) := noCycle_iff

def selfPointer : Mem := [0, 0, 0, 0, 0, 1, 0, 0, 0, 0, 0, 0, 0xC0, 12, 0, 1, 0, 1]

/-- The parser does not return on it, whatever fuel it is given. -/
theorem mdnsParseMessage_selfPointer_hangs :
    ¬ ∃ fuel, mdnsParseMessage fuel selfPointer selfPointer.length ≠ .error .hang := by
  have hcyc : Cyclic (swapFlags selfPointer) 17 12 := ⟨1, 2, by decide, by decide, by decide⟩
  have hfields : (scanPacket selfPointer selfPointer.length).fields = [12] := by decide
  have hhang : (scanPacket selfPointer selfPointer.length).outcome (swapFlags selfPointer) 17 = .error .hang := by
    rw [outcome_eq_hang, hfields]
    exact fun h => h.1 hcyc
  rintro ⟨fuel, hret⟩
  exact hret ((stable_mdnsParseMessage _ _).comes_bot (hhang ▸ mdnsParseMessage_comes _ _) fuel)

end Mdns
