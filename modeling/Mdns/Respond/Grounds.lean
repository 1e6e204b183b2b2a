import Mdns.Respond.Answers

/-!
# What a name is given up for

`fix_response_conflicts` takes every message that is not a probe for a response, so it also takes
the known answers of an ordinary query for the answers of a response.
-/
namespace Mdns
open Lib List Option

section grounds
variable {m p : Message} {fuel off : Nat} {name : Mem} {a : Resource} {r r' : Responder}
  {s s' : Service} {domname : CString}
  {ret ret' : Int}

theorem Bears.cmp {c : Int} (h : Bears m off name)
    (hc : dnameCmp fuel (.packet m.data) off (.plain name) 0 = some c) : c = 0 := by
  obtain ⟨ls, h1, h2⟩ := h
  rw [dnameCmp_eq hc h1 h2]
  exact cmpLabels_eq_zero.mpr rfl

/-- What a name may be given up for: a response that has a record for it, or a query that wins it. -/
def Grounds (m p : Message) (type : Nat) (name : Mem) : Prop :=
  (m.qr = true ∧ Lists m type name) ∨ (m.qr = false ∧ Wins m p name)

theorem renameHost_ret (h : renameHost r ret = some (r', ret')) : ret' ≠ 0 := by
  obtain ⟨⟨fqdn, code⟩, -, h⟩ := bind_eq_some_iff.mp h
  simp only [pure, some.injEq] at h
  split at h
  · cases h
    decide
  · cases h
    split <;> omega

theorem renameService_ret (h : renameService domname s ret = some (s', ret')) : ret' ≠ 0 := by
  obtain ⟨⟨fqsn, code⟩, -, h⟩ := bind_eq_some_iff.mp h
  simp only [pure, some.injEq] at h
  split at h
  · cases h
    exact show (-1 : Int) ≠ 0 by decide
  · cases h
    split <;> omega

theorem answerConflictHost_zero (h : answerConflictHost fuel m a r ret = some (r', 0)) :
    ret = 0 ∧ r' = r ∧ (a.type = tA → ¬ Bears m a.name r.fqdn) := by
  unfold answerConflictHost at h
  split at h
  · obtain ⟨c, hcmp, h⟩ := bind_eq_some_iff.mp h
    split at h
    · exact absurd rfl (renameHost_ret h)
    · next hc =>
      cases h
      exact ⟨rfl, rfl, fun _ hbears => hc (hbears.cmp hcmp)⟩
  · next htype =>
    cases h
    exact ⟨rfl, rfl, fun htype' => absurd htype' htype⟩

theorem answerConflictServices_zero {ss ss' : List Service}
    (h : answerConflictServices fuel m a domname ss ret = some (ss', 0)) :
    ret = 0 ∧ ss' = ss ∧ ∀ s ∈ ss, ¬ Bears m a.name s.fqsn := by
  induction ss generalizing ss' ret with
  | nil =>
    cases h
    exact ⟨rfl, rfl, fun s hs => by cases hs⟩
  | cons s ss ih =>
    obtain ⟨c, s1, ret1, rest, hcmp, hone, hrest, rfl⟩ := answerConflictServices_cons h
    obtain ⟨rfl, rfl, hall⟩ := ih hrest
    split at hone
    · exact absurd rfl (renameService_ret hone)
    · next hc =>
      cases hone
      exact ⟨rfl, rfl, forall_mem_cons.mpr ⟨fun hbears => hc (hbears.cmp hcmp), hall⟩⟩

theorem answerConflicts_zero {as : List Resource} (h : answerConflicts fuel m as r ret = some (r', 0)) :
    ret = 0 ∧ r' = r ∧ ∀ a ∈ as, (a.type = tA → ¬ Bears m a.name r.fqdn) ∧
      (a.type = tSrv → ∀ s ∈ r.services, ¬ Bears m a.name s.fqsn) := by
  induction as generalizing r ret with
  | nil =>
    cases h
    exact ⟨rfl, rfl, fun a ha => by cases ha⟩
  | cons a as ih =>
    obtain ⟨⟨r1, ret1⟩, hhost, h⟩ := bind_eq_some_iff.mp h
    dsimp only at h
    split at h
    · next htype =>
      obtain ⟨⟨ss, ret2⟩, hservices, h⟩ := bind_eq_some_iff.mp h
      obtain ⟨rfl, rfl, hall⟩ := ih h
      obtain ⟨rfl, rfl, hss⟩ := answerConflictServices_zero hservices
      obtain ⟨rfl, rfl, hfirst⟩ := answerConflictHost_zero hhost
      exact ⟨rfl, rfl, forall_mem_cons.mpr ⟨⟨hfirst, fun _ => hss⟩, hall⟩⟩
    · next htype =>
      obtain ⟨rfl, rfl, hall⟩ := ih h
      obtain ⟨rfl, rfl, hfirst⟩ := answerConflictHost_zero hhost
      exact ⟨rfl, rfl, forall_mem_cons.mpr ⟨⟨hfirst, fun htype' => absurd htype' htype⟩, hall⟩⟩

end grounds

section main
variable {m p : Message} {r : Responder} {a : Resource} {ls ls' : Labels}

structure Quiet (m : Message) (r : Responder) : Prop where
  host : ¬ Lists m tA r.fqdn
  services : ∀ s ∈ r.services, ¬ Lists m tSrv s.fqsn

theorem Quiet.mem (h : Quiet m r) (ha : a ∈ m.answers) : (a.type = tA → ¬ Bears m a.name r.fqdn) ∧
    (a.type = tSrv → ∀ s ∈ r.services, ¬ Bears m a.name s.fqsn) :=
  ⟨fun htype hbears => h.host ⟨a, ha, htype, hbears⟩, fun htype s hs hbears => h.services s hs ⟨a, ha, htype, hbears⟩⟩

theorem cmp_ne_of_not_bears {off : Nat} {name : Mem} (h : Expands (.packet m.data) off ls)
    (h' : Expands (.plain name) 0 ls') (hne : ¬ Bears m off name) :
    ∃ c : Int, c ≠ 0 ∧ Comes (fun fuel => dnameCmp fuel (.packet m.data) off (.plain name) 0) (some c) := by
  refine ⟨cmpLabels ls ls', ?_, dnameCmp_comes h h'⟩
  intro hzero
  obtain rfl := cmpLabels_eq_zero.mp hzero
  exact hne ⟨ls, h, h'⟩

theorem answerConflictHost_quiet (h : Expands (.packet m.data) a.name ls)
    (hname : Expands (.plain r.fqdn) 0 ls') (hquiet : a.type = tA → ¬ Bears m a.name r.fqdn) (ret : Int) :
    Comes (fun fuel => answerConflictHost fuel m a r ret) (some (r, ret)) := by
  unfold answerConflictHost
  by_cases htype : a.type = tA
  · obtain ⟨c, hc, hcomes⟩ := cmp_ne_of_not_bears h hname (hquiet htype)
    simp only [if_pos htype]
    refine comes_bind_some hcomes ?_
    simp only [if_neg hc]
    exact comes_const _
  · simp only [if_neg htype]
    exact comes_const _

theorem answerConflictServices_quiet {domname : CString} {ss : List Service}
    (h : Expands (.packet m.data) a.name ls) (hnames : ∀ s ∈ ss, ∃ ls', Expands (.plain s.fqsn) 0 ls')
    (hquiet : ∀ s ∈ ss, ¬ Bears m a.name s.fqsn) (ret : Int) :
    Comes (fun fuel => answerConflictServices fuel m a domname ss ret) (some (ss, ret)) := by
  induction ss with
  | nil => exact comes_const _
  | cons s ss ih =>
    obtain ⟨ls', hls'⟩ := hnames s (.head _)
    obtain ⟨c, hc, hcomes⟩ := cmp_ne_of_not_bears h hls' (hquiet s (.head _))
    have hrest := ih (fun s' hs' => hnames s' (.tail _ hs')) (fun s' hs' => hquiet s' (.tail _ hs'))
    refine comes_bind_some hcomes ?_
    simp only [if_neg hc]
    exact comes_bind_some (comes_const _) (comes_bind_some hrest (comes_const _))

theorem answerConflicts_quiet {as : List Resource} (h : ∀ a ∈ as, ∃ ls, Expands (.packet m.data) a.name ls)
    (hname : Expands (.plain r.fqdn) 0 ls') (hnames : ∀ s ∈ r.services, ∃ ls', Expands (.plain s.fqsn) 0 ls')
    (hquiet : ∀ a ∈ as, (a.type = tA → ¬ Bears m a.name r.fqdn) ∧
      (a.type = tSrv → ∀ s ∈ r.services, ¬ Bears m a.name s.fqsn)) (ret : Int) :
    Comes (fun fuel => answerConflicts fuel m as r ret) (some (r, ret)) := by
  induction as with
  | nil => exact comes_const _
  | cons a as ih =>
    obtain ⟨ls, hls⟩ := h a (.head _)
    obtain ⟨hhost, hservices⟩ := hquiet a (.head _)
    have hrest := ih (fun a' ha' => h a' (.tail _ ha')) (fun a' ha' => hquiet a' (.tail _ ha'))
    refine comes_bind_some (answerConflictHost_quiet hls hname hhost ret) ?_
    by_cases htype : a.type = tSrv
    · simp only [if_pos htype]
      exact comes_bind_some (answerConflictServices_quiet hls hnames (hservices htype) ret) hrest
    · simp only [if_neg htype]
      exact hrest

/-- Each renaming is of a name that there are grounds to give up, and an ordinary query leaves everything as it is. -/
structure GivesUpForGrounds (r : Responder) (m p : Message) : Prop where
  sound : ∀ r' ret, Comes (fun fuel => fixResponseConflicts fuel r m p) (some (r', ret)) →
    ∃ cs, GivesUp (Grounds m p) cs (r, 0) (r', ret)
  ordinary : m.qr = false → m.numAuthorities = 0 → Comes (fun fuel => fixResponseConflicts fuel r m p) (some (r, 0))

/-- `fix_response_conflicts` gives up names for a reason only, exactly if the message is a response or a
probe, or its known answers have none of our names. -/
theorem fixResponseConflicts_grounds_iff (hr : r.WellNamed) (hm : Parsed m) :
    GivesUpForGrounds r m p ↔ m.qr = true ∨ 0 < m.numAuthorities ∨ Quiet m r := by
  have hordinary : m.qr = false → m.numAuthorities = 0 →
      ∀ fuel, fixResponseConflicts fuel r m p = answerConflicts fuel m m.answers r 0 := by
    intro hqr hna fuel
    simp [fixResponseConflicts, hqr, hna]
  constructor
  · intro h
    by_contra hno
    obtain ⟨hqr, hna, hloud⟩ : m.qr = false ∧ m.numAuthorities = 0 ∧ ¬ Quiet m r := by
      simpa [not_or] using hno
    obtain ⟨fuel, hf⟩ := h.ordinary hqr hna
    have hzero : answerConflicts fuel m m.answers r 0 = some (r, 0) :=
      (hordinary hqr hna fuel).symm.trans (hf fuel (Nat.le_refl _))
    obtain ⟨-, -, hall⟩ := answerConflicts_zero hzero
    refine hloud ⟨?_, ?_⟩
    · rintro ⟨a, ha, htype, hbears⟩
      exact (hall a ha).1 htype hbears
    · rintro s hs ⟨a, ha, htype, hbears⟩
      exact (hall a ha).2 htype s hs hbears
  · intro h
    have hquiet : m.qr = false → m.numAuthorities = 0 →
      Comes (fun fuel => fixResponseConflicts fuel r m p) (some (r, 0)) := by
      intro hqr hna
      have hq : Quiet m r := by
        rcases h with h | h | h
        · exact absurd (hqr.symm.trans h) (by decide)
        · omega
        · exact h
      simp only [hordinary hqr hna]
      obtain ⟨l, hl⟩ := hr.fqdn
      have hnames : ∀ s ∈ r.services, ∃ ls', Expands (.plain s.fqsn) 0 ls' := by
        intro s hs
        obtain ⟨l', hl'⟩ := (hr.services s hs).fqsn
        exact ⟨_, hl'.expands⟩
      exact answerConflicts_quiet (fun a ha => hm.expands (mem_append_left _ ha)) hl.expands hnames
        (fun a ha => hq.mem ha) 0
    refine ⟨?_, hquiet⟩
    rintro r' ret ⟨fuel, hf⟩
    have hret : fixResponseConflicts fuel r m p = some (r', ret) := hf fuel (Nat.le_refl _)
    obtain ⟨cs, hcs⟩ := fixResponseConflicts_givesUp hret
    cases hqr : m.qr with
    | true => exact ⟨cs, hcs.mono fun type name hc => .inl ⟨hqr, by simpa [Contests, hqr] using hc⟩⟩
    | false =>
      by_cases hna : m.numAuthorities = 0
      · cases Comes.unique ⟨fuel, hf⟩ (hquiet hqr hna)
        exact ⟨[], .nil _⟩
      · exact ⟨cs, hcs.mono fun type name hc => .inr ⟨hqr, by simpa [Contests, hqr, Nat.pos_of_ne_zero hna] using hc⟩⟩

/-- A response of another host with the names `foo.local` and `web._http._tcp.local`. -/
def fooTaken : Mem :=
  [0, 0, 132, 0, 0, 0, 0, 2, 0, 0, 0, 0] ++ encodeName [[102, 111, 111], [108, 111, 99, 97, 108]] ++
    [0, 1, 0, 1, 0, 0, 0, 120, 0, 4, 0, 0, 0, 2] ++
    encodeName [[119, 101, 98], [95, 104, 116, 116, 112], [95, 116, 99, 112], [108, 111, 99, 97, 108]] ++
    [0, 33, 0, 1, 0, 0, 0, 120, 0, 8, 0, 0, 0, 0, 0, 80, 192, 12]

/-- Both names are given up for that response. -/
theorem fixResponseConflicts_grounds_foo : ∃ m r', mdnsParseMessage 10 fooTaken fooTaken.length = .ok m ∧
    fixResponseConflicts 10 fooReady m m = some (r', 1) ∧ firstLabel r'.fqdn = [102, 111, 111, 45, 50] ∧
    r'.services.map (firstLabel ·.fqsn) = [[119, 101, 98, 45, 50]] ∧ GivesUpForGrounds fooReady m m := by
  have heval : ((mdnsParseMessage 10 fooTaken fooTaken.length).toOption.any fun m =>
      (fixResponseConflicts 10 fooReady m m).any fun x =>
        decide (m.qr = true ∧ x.2 = 1 ∧ firstLabel x.1.fqdn = [102, 111, 111, 45, 50] ∧
        x.1.services.map (firstLabel ·.fqsn) = [[119, 101, 98, 45, 50]])) = true := by decide +kernel
  obtain ⟨m, hok, heval⟩ := exists_ok heval
  obtain ⟨⟨r', ret⟩, hfix, heval⟩ := (Option.any_eq_true _ _).mp heval
  obtain ⟨hqr, hret, hhost, hservices⟩ := of_decide_eq_true heval
  cases hret
  exact ⟨m, r', hok, hfix, hhost, hservices,
    (fixResponseConflicts_grounds_iff fooReady_wellNamed ⟨_, _, _, hok⟩).mpr (.inl hqr)⟩

/-- A query for the address of `foo.local` that lists an address as known. -/
def knownQuery : Mem :=
  [0, 0, 0, 0, 0, 1, 0, 1, 0, 0, 0, 0] ++ encodeName [[102, 111, 111], [108, 111, 99, 97, 108]] ++ [0, 1, 0, 1] ++
    [192, 12, 0, 1, 0, 1, 0, 0, 0, 120, 0, 4, 0, 0, 0, 1]

/-- The host is `foo-2.local` after that query. -/
theorem fixResponseConflicts_known :
    ((mdnsParseMessage 10 knownQuery knownQuery.length).toOption.map fun m =>
      (m.qr, m.numAuthorities)) = some (false, 0) ∧
      plainLabels fooReady.fqdn = [[102, 111, 111], [108, 111, 99, 97, 108]] ∧
      ((mdnsParseMessage 10 knownQuery knownQuery.length).toOption.bind fun m =>
        (fixResponseConflicts 10 fooReady m m).map fun x => (plainLabels x.1.fqdn, x.2)) =
        some ([[102, 111, 111, 45, 50], [108, 111, 99, 97, 108]], 1) := by
  refine ⟨by decide +kernel, by decide +kernel, by decide +kernel⟩

end main

end Mdns
