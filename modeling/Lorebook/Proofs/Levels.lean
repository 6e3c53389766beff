import Lorebook.Proofs.Gating
import Lorebook.Proofs.PassCount

set_option autoImplicit false

/-!
Entries that wait for a recursion level. The level never goes down while a scan lasts, and a scan
that ends with a busy recursive pass has opened every level. A pass that activates nothing ends the
scan where it stands, and may leave entries waiting.
-/

namespace Lorebook

/-- An entry that is always there, and one that waits for what it says at a recursion level. -/
def Book.ladder (level : Int) : Book where
  recursiveScanning := true
  entries := [{ uid := lit "s", constant := true, content := lit "dragon" },
    { uid := lit "w", keys := [lit "dragon"], content := lit "deep",
      delayUntilRecursion := some level }]

namespace Scan

section Passes

variable {su : Setup} {s t u : State}

def StepLimited (su : Setup) (s : State) : Prop :=
  freshContent (settled su s) (accept su (resolved su s) (kept su s)).2 ≠ [] ∧
    su.scanner.maxRecursionSteps < s.recursionSteps + 1

instance (su : Setup) (s : State) : Decidable (StepLimited su s) :=
  inferInstanceAs (Decidable (_ ∧ _))

theorem level_le_of_again (hmin : su.widens = false) (h : step su s = .again t) :
    s.level ≤ t.level := by
  cases continues_of_again h with
  | fed _ _ _ hlevel => exact hlevel
  | raised _ _ hlevel _ => omega
  | wider hw _ _ _ _ => simp [hmin] at hw

/-- The pass that ends a scan is to every pass of it what a pass is to the one before it. -/
theorem Passes.last_of_again {R : State → State → Prop} (hrefl : ∀ s, R s s)
    (htrans : ∀ {r s t}, R r s → R s t → R r t)
    (hagain : ∀ {s t}, step su s = .again t → R s t) {n fuel : Nat} (h : Passes su s n u)
    (hf : n ≤ fuel) :
    ∃ t ∈ trace su fuel s, step su t = .stop u ∧ ∀ r ∈ trace su fuel s, R r t := by
  -- From the last pass backwards.
  induction h generalizing fuel with
  | @last s u hst =>
    obtain ⟨fuel, rfl⟩ := Nat.exists_eq_add_of_le' hf
    exact ⟨s, by simp [trace], hst, by simp [trace, hst, hrefl]⟩
  | @more s t u n hst _ ih =>
    obtain ⟨fuel, rfl⟩ := Nat.exists_eq_add_of_le' (Nat.le_of_add_left_le hf)
    obtain ⟨r, hr, hstop, hmax⟩ := @ih fuel (by omega)
    have hself : t ∈ trace su fuel t := by
      cases fuel with
      | zero => simp [trace] at hr
      | succ fuel => simp [trace]
    refine ⟨r, by simp [trace, hst, hr], hstop, ?_⟩
    simp only [trace, hst, List.forall_mem_cons]
    exact ⟨htrans (hagain hst) (hmax t hself), hmax⟩

/-- The pass that ends a scan has the highest level of all. -/
theorem Passes.exists_last {n fuel : Nat} (hmin : su.widens = false) (h : Passes su s n u)
    (hf : n ≤ fuel) :
    ∃ t ∈ trace su fuel s, step su t = .stop u ∧ ∀ r ∈ trace su fuel s, r.level ≤ t.level :=
  h.last_of_again (R := fun r t => r.level ≤ t.level) (fun s => Int.le_refl s.level) Int.le_trans
    (level_le_of_again hmin) hf

theorem fresh_of_stop (hrec : su.recursive = true) (hstop : step su t = .stop u)
    (hover : u.overflowed = false) (hlimit : ¬StepLimited su t) :
    freshContent (settled su t) (accept su (resolved su t) (kept su t)).2 = [] := by
  by_contra hfresh
  have hsteps : ¬su.scanner.maxRecursionSteps < (settled su t).recursionSteps + 1 := by
    rw [(SameReach.settled su t).recursionSteps]
    exact fun hlt => hlimit ⟨hfresh, hlt⟩
  have hbusy : activatedKeys su t ≠ [] := by
    intro hidle
    have hkept : kept su t = [] :=
      List.eq_nil_iff_forall_not_mem.mpr fun k hk => by simpa [hidle] using mem_kept hk
    exact hfresh (by rw [hkept]; rfl)
  rw [(decisions_of_stop hstop).overflowed] at hover
  rw [step_eq, if_neg (by simpa using hbusy), if_neg (by simp [hover]), escalate] at hstop
  rw [if_pos (by simpa [hrec] using hfresh), if_neg hsteps] at hstop
  cases hstop

/-- A recursive pass that ends its scan though it has activated something, and stays within its
limits, has found no level that is still closed. -/
theorem levels_open_of_stop (hrec : su.recursive = true) (hstop : step su t = .stop u)
    (hbuffer : t.buffer ≠ []) (hover : u.overflowed = false) (hlimit : ¬StepLimited su t)
    (hbusy : activatedKeys su t ≠ []) : ∀ n ∈ su.levels, n ≤ t.level := by
  have hreach := SameReach.settled su t
  have hfresh := fresh_of_stop hrec hstop hover hlimit
  rw [(decisions_of_stop hstop).overflowed] at hover
  rw [step_eq, if_neg (by simpa using hbusy), if_neg (by simp [hover]), escalate,
    if_neg (by simp [hfresh]), if_pos (by simpa [hrec, hreach.buffer] using hbuffer)] at hstop
  split at hstop
  · cases hstop
  · next hnext =>
    rw [nextLevel?, hreach.level, List.find?_eq_none] at hnext
    simpa using hnext

end Passes

section Evaluate

variable {sc : Scanner} {books : List Book} {o : Options} {vars : Variables} {random : Random}
  {su : Setup} {s t : State} {e : Entry}

/-- In a recursive pass that is open to its level, an entry is looked at, if its key has not been
decided about before. -/
def Considered (su : Setup) (s : State) (e : Entry) : Prop :=
  ∃ t ∈ trace su (passBound su) s, passKind su t = .recursive ∧ e.recursionLevel ≤ t.level ∧
    (e.key ∈ t.selectedKeys ∨ e.key ∈ t.failedKeys ∨ eligible su t e = true)

instance (su : Setup) (s : State) (e : Entry) : Decidable (Considered su s e) :=
  inferInstanceAs (Decidable (∃ t ∈ trace su (passBound su) s, _))

/-- An entry that waits for a recursion level and for nothing else. -/
@[mk_iff]
structure Waits (su : Setup) (e : Entry) : Prop where
  enabled : e.enabled = true
  delays : e.delaysUntilRecursion = true
  due : su.effects.delayActive e = false
  free : su.effects.cooldownActive e.key = true → su.stickyActive e.key = true
  included : e.excludeRecursion = false

instance (su : Setup) (e : Entry) : Decidable (Waits su e) :=
  decidable_of_iff _ (waits_iff su e).symm

theorem Waits.considered (h : Waits su e) (ht : t ∈ trace su (passBound su) s)
    (hkind : passKind su t = .recursive) (hlevel : e.recursionLevel ≤ t.level) :
    Considered su s e := by
  refine ⟨t, ht, hkind, hlevel, ?_⟩
  by_cases hselected : e.key ∈ t.selectedKeys
  · exact .inl hselected
  by_cases hfailed : e.key ∈ t.failedKeys
  · exact .inr (.inl hfailed)
  have hadmits : Admits su t e :=
    ⟨h.enabled, h.due, h.free, fun _ _ => ⟨hkind, hlevel⟩, by simp [h.included]⟩
  exact .inr (.inr (eligible_iff.mpr ⟨hselected, hfailed, hadmits⟩))

/-- A recursive scan ends with a pass of the highest level. Unless the budget or the number of
recursion steps cuts it off, an entry has waited in vain just if that pass is idle and below its
level. -/
theorem considered_iff (h : opening? sc books o vars random = some (su, s))
    (hrec : su.recursive = true) :
    ∃ t ∈ trace su (passBound su) s, step su t = .stop (ending su s) ∧
      (∀ r ∈ trace su (passBound su) s, r.level ≤ t.level) ∧
      (t.buffer ≠ [] → (ending su s).overflowed = false → ¬StepLimited su t →
        ∀ e ∈ triggeredEntries books o.generation, Waits su e →
          (Considered su s e ↔ (activatedKeys su t = [] → e.recursionLevel ≤ t.level))) := by
  obtain ⟨fx, log, rfl, rfl⟩ := opening?_eq_some h
  have hmin : (setup sc books o fx).widens = false := by
    rw [widens_setup]
    exact decide_eq_false (not_widening_of_recursive hrec)
  obtain ⟨n, u, hpasses, hbound, _⟩ := passes_of_recursive hrec hmin
    (.initial (setup sc books o fx) random log)
  obtain ⟨t, ht, hstop, hmax⟩ := hpasses.exists_last hmin hbound
  have hend : u = ending (setup sc books o fx) (.initial (setup sc books o fx) random log) :=
    (hpasses.run_eq hbound).symm
  rw [hend] at hstop
  refine ⟨t, ht, hstop, hmax, fun hbuffer hover hlimit e he hwaits => ?_⟩
  have hkind : passKind (setup sc books o fx) t = .recursive := by
    simp [passKind, hrec, hbuffer]
  constructor
  · rintro ⟨r, hr, _, hlevel, _⟩ _
    exact Int.le_trans hlevel (hmax r hr)
  · intro hidle
    refine hwaits.considered ht hkind ?_
    -- A busy pass would go on to the next level, so that an idle one alone leaves levels closed.
    by_cases hbusy : activatedKeys (setup sc books o fx) t = []
    · exact hidle hbusy
    · exact levels_open_of_stop hrec hstop hbuffer hover hlimit hbusy _
        (mem_recursionLevels.mpr ⟨e, he, hwaits.delays, rfl⟩)

theorem considered_iff_ladder : ∃ su s,
    opening? .standard [.ladder 1] { text := some (lit "x") } [] (.ofList []) = some (su, s) ∧
      su.recursive = true ∧ (ending su s).overflowed = false ∧
      ∃ e ∈ (Book.ladder 1).entries, Waits su e ∧ Considered su s e := by
  have hcheck : (opening? .standard [.ladder 1] { text := some (lit "x") } [] (.ofList [])).any
      (fun p => p.1.recursive && !(ending p.1 p.2).overflowed
        && (trace p.1 (passBound p.1) p.2).all (fun t => !decide (StepLimited p.1 t)
          && (t.level < 1 || !t.buffer.isEmpty))
        && (trace p.1 (passBound p.1) p.2).any (fun t => 1 ≤ t.level)
        && (Book.ladder 1).entries.any fun e => Waits p.1 e && e.recursionLevel ≤ 1) = true := by
    decide +kernel
  obtain ⟨⟨su, s⟩, hopen, hcheck⟩ := (Option.any_eq_true _ _).mp hcheck
  simp only [Bool.and_eq_true, Bool.or_eq_true, Bool.not_eq_true', List.all_eq_true,
    List.any_eq_true, decide_eq_true_eq, decide_eq_false_iff_not] at hcheck
  obtain ⟨⟨⟨⟨hrec, hover⟩, hpasses⟩, r, hr, hopened⟩, e, he, hwaits, hone⟩ := hcheck
  obtain ⟨t, ht, _, hmax, hiff⟩ := considered_iff hopen hrec
  have hlevel : r.level ≤ t.level := hmax r hr
  obtain ⟨hlimit, hbuffer⟩ := hpasses t ht
  have hbuffer : t.buffer ≠ [] := by simpa using hbuffer.resolve_left (by omega)
  refine ⟨su, s, hopen, hrec, hover, e, he, hwaits, ?_⟩
  exact (hiff hbuffer hover hlimit e he hwaits).mpr fun _ => by omega

/-- On the second level it does. The first content opens the first level only, and the pass that
follows is idle. -/
theorem not_considered_ladder : ¬∀ (sc : Scanner) (books : List Book) (o : Options)
    (vars : Variables) (random : Random) (su : Setup) (s : State),
    opening? sc books o vars random = some (su, s) → su.recursive = true →
      (ending su s).overflowed = false →
      (∀ t ∈ trace su (passBound su) s, ¬StepLimited su t) →
      (∃ t ∈ trace su (passBound su) s, t.buffer ≠ []) →
      ∀ e ∈ triggeredEntries books o.generation, Waits su e → Considered su s e := by
  intro hall
  have hcheck : (opening? .standard [.ladder 2] { text := some (lit "x") } [] (.ofList [])).any
      (fun p => p.1.recursive && !(ending p.1 p.2).overflowed
        && (trace p.1 (passBound p.1) p.2).all (fun t => !decide (StepLimited p.1 t))
        && (trace p.1 (passBound p.1) p.2).any (fun t => t.buffer ≠ [])
        && (Book.ladder 2).entries.any fun e => Waits p.1 e && !decide (Considered p.1 p.2 e))
      = true := by
    decide +kernel
  obtain ⟨⟨su, s⟩, hopen, hcheck⟩ := (Option.any_eq_true _ _).mp hcheck
  simp only [Bool.and_eq_true, Bool.not_eq_true', List.all_eq_true, List.any_eq_true,
    decide_eq_true_eq, decide_eq_false_iff_not] at hcheck
  obtain ⟨⟨⟨⟨hrec, hover⟩, hlimit⟩, hbuffer⟩, e, he, hwaits, hnot⟩ := hcheck
  exact hnot (hall _ _ _ _ _ su s hopen hrec hover hlimit hbuffer e he hwaits)

end Evaluate
end Scan
end Lorebook
