import Lorebook.Proofs.BudgetMonotone
import Lorebook.Proofs.Gating
import Lorebook.Proofs.PassCount

set_option autoImplicit false

/-!
Wider limits select no less. A scan with wider limits for recursion steps, for activations and for
the window goes through the same passes, with the same draws, as long as the other one goes on; and
what has been selected by then stays selected in the passes that it takes beyond.
-/

namespace Lorebook.Scan

structure Limits where
  steps : Nat
  recursive : Bool
  minActivations : Int
  maxDepth : Int

def Setup.withLimits (su : Setup) (l : Limits) : Setup :=
  { su with
    scanner := { su.scanner with maxRecursionSteps := l.steps }
    recursive := l.recursive
    minActivations := l.minActivations
    maxDepth := l.maxDepth }

/-- Limits that let a scan go on wherever the setup's own do. -/
structure Limits.Covers (l : Limits) (su : Setup) : Prop where
  steps : su.scanner.maxRecursionSteps ≤ l.steps
  recursive : su.recursive = true → l.recursive = true
  /-- Where recursion is switched on, there is no widening. -/
  exclusive : l.recursive = true → su.widens = false
  widens : (su.withLimits l).widens = su.widens
  minActivations : su.minActivations ≤ l.minActivations
  maxDepth : 0 < l.maxDepth → 0 < su.maxDepth ∧ su.maxDepth ≤ l.maxDepth

section Pass

variable {su : Setup} {l : Limits} {s t : State}

theorem accept_withLimits (su : Setup) (l : Limits) (s : State) (ks : List Bytes) :
    accept (su.withLimits l) s ks = accept su s ks := by
  have hone : acceptOne (su.withLimits l) = acceptOne su := rfl
  induction ks generalizing s with
  | nil => rfl
  | cons k ks ih => simp only [accept, hone, ih]

theorem Coherent.withLimits (h : Coherent su s) (l : Limits) : Coherent (su.withLimits l) s :=
  h.of_setup rfl rfl rfl

/-- The limits make no difference to a pass that begins in a state. -/
structure Limits.Spares (l : Limits) (su : Setup) (s : State) : Prop where
  widens : (su.withLimits l).widens = su.widens
  recursive : su.recursive = l.recursive ∨ s.buffer = []

namespace Limits.Spares

theorem of_buffer (h : l.Spares su s) (ht : t.buffer = s.buffer) : l.Spares su t :=
  ⟨h.widens, ht ▸ h.recursive⟩

theorem passKind (h : l.Spares su s) : passKind (su.withLimits l) s = passKind su s := by
  have hrec : (su.withLimits l).recursive = l.recursive := rfl
  unfold Scan.passKind
  rw [h.widens, hrec]
  rcases h.recursive with hr | hb
  · rw [hr]
  · simp [hb]

theorem textFor (h : l.Spares su s) (e : Entry) :
    textFor (su.withLimits l) s e = textFor su s e := by
  have hdepth : passDepth (su.withLimits l) s = passDepth su s := by
    unfold passDepth
    rw [h.widens]
    rfl
  unfold Scan.textFor
  rw [h.passKind, hdepth]
  rfl

theorem eligible (h : l.Spares su s) (e : Entry) :
    eligible (su.withLimits l) s e = eligible su s e := by
  unfold Scan.eligible levelOpen
  rw [h.passKind]
  rfl

theorem trigger? (h : l.Spares su s) (e : Entry) :
    trigger? (su.withLimits l) s e = trigger? su s e := by
  unfold Scan.trigger?
  rw [h.textFor]
  rfl

theorem activated (h : l.Spares su s) : activated (su.withLimits l) s = activated su s := by
  unfold Scan.activated
  apply List.filterMap_congr
  intro e _
  rw [h.eligible, h.trigger?]

theorem enlisted (h : l.Spares su s) : enlisted (su.withLimits l) s = enlisted su s := by
  have hbegun : l.Spares su { s with passes := s.passes + 1 } := h.of_buffer rfl
  unfold Scan.enlisted activate
  dsimp only
  rw [hbegun.activated, hbegun.passKind, h.passKind]
  rfl

theorem lineup (h : l.Spares su s) : lineup (su.withLimits l) s = lineup su s := by
  have hordered : ordered (su.withLimits l) = ordered su := rfl
  rw [Scan.lineup, Scan.lineup, hordered, h.enlisted, activatedKeys, activatedKeys, h.activated]

theorem resolveGroups (h : l.Spares su s) (keys : List Bytes) :
    resolveGroups (su.withLimits l) s keys = resolveGroups su s keys := by
  have hlosers : scoreLosers (su.withLimits l) s = scoreLosers su s := by
    funext members
    unfold scoreLosers
    simp only [h.textFor]
    rfl
  have hgroup : resolveGroup (su.withLimits l) s = resolveGroup su s := by
    funext d name all
    unfold resolveGroup
    rw [hlosers]
    rfl
  rw [Scan.resolveGroups, Scan.resolveGroups, hgroup]

theorem accepted (h : l.Spares su s) :
    accept (su.withLimits l) (resolved (su.withLimits l) s) (kept (su.withLimits l) s)
      = accept su (resolved su s) (kept su s) := by
  have hgroups := (h.of_buffer (SameReach.enlisted su s).buffer).resolveGroups
  rw [accept_withLimits, resolved, resolved, kept, kept, h.enlisted, h.lineup, hgroups]

theorem settled (h : l.Spares su s) : settled (su.withLimits l) s = settled su s :=
  congrArg Prod.fst h.accepted

end Limits.Spares

namespace Limits.Covers

variable (h : l.Covers su) {accepted : List Bytes}

include h

theorem widen (hw : widen su s = .again t) : Scan.widen (su.withLimits l) s = .again t := by
  unfold Scan.widen at hw ⊢
  split at hw
  · next hcan =>
    have hwider : widerDepth (su.withLimits l) s = widerDepth su s := rfl
    have hbig : canWiden (su.withLimits l) s = true := by
      have hmin := h.minActivations
      have hdepth := h.maxDepth
      have hm : (su.withLimits l).minActivations = l.minActivations := rfl
      have hd : (su.withLimits l).maxDepth = l.maxDepth := rfl
      have hsrc : (su.withLimits l).sources = su.sources := rfl
      simp only [canWiden, h.widens, hwider, hm, hd, hsrc, Bool.and_eq_true, decide_eq_true_eq,
        Bool.not_eq_true', Bool.and_eq_false_iff, decide_eq_false_iff_not] at hcan ⊢
      obtain ⟨⟨⟨hwid, hfew⟩, hroom⟩, hchat⟩ := hcan
      refine ⟨⟨⟨hwid, by omega⟩, ?_⟩, hchat⟩
      by_cases hl : 0 < l.maxDepth
      · have := hdepth hl
        omega
      · exact .inl hl
    rw [if_pos hbig]
    exact hw
  · cases hw

theorem escalate (ha : escalate su s accepted = .again t) :
    Scan.escalate (su.withLimits l) s accepted = .again t ∧ su.recursive = l.recursive := by
  have hrec : (su.withLimits l).recursive = l.recursive := rfl
  cases hr : su.recursive with
  | false =>
    have hwiden : Scan.widen su s = .again t := by simpa [Scan.escalate, hr] using ha
    have hl : l.recursive = false := by
      cases hl : l.recursive with
      | false => rfl
      | true =>
        have hw := h.exclusive hl
        simp [Scan.widen, canWiden, hw] at hwiden
    refine ⟨?_, hl.symm⟩
    simpa [Scan.escalate, hrec, hl] using h.widen hwiden
  | true =>
    have hl := h.recursive hr
    refine ⟨?_, hl.symm⟩
    simp only [Scan.escalate, hr, hrec, hl, Bool.true_and] at ha ⊢
    split at ha
    · next hfresh =>
      rw [if_pos hfresh]
      split at ha
      · cases ha
      · next hsteps =>
        have hs := h.steps
        have hlsteps : (su.withLimits l).scanner.maxRecursionSteps = l.steps := rfl
        rw [if_neg (by omega)]
        exact ha
    · next hfresh =>
      rw [if_neg hfresh]
      have hnext : nextLevel? (su.withLimits l) s = nextLevel? su s := rfl
      rw [hnext]
      split at ha
      · exact ha
      · exact h.widen ha

theorem step (hs : l.Spares su s) (hst : step su s = .again t) :
    Scan.step (su.withLimits l) s = .again t ∧ su.recursive = l.recursive := by
  have hkeys : activatedKeys (su.withLimits l) s = activatedKeys su s := by
    rw [activatedKeys, activatedKeys, hs.activated]
  rw [step_eq] at hst ⊢
  rw [hkeys, hs.settled, hs.accepted]
  split at hst
  · cases hst
  · next hne =>
    split at hst
    · cases hst
    · next ho =>
      rw [if_neg hne, if_neg ho]
      exact h.escalate hst

/-- What a scan selects it selects under wider limits. -/
theorem selects_run (hs : l.Spares su s) (hc : Coherent su s) {fuel fuel' : Nat}
    (hfuel : fuel ≤ fuel' ∨ su.recursive ≠ l.recursive ∧ 0 < fuel') {k : Bytes}
    (hk : (run su fuel s).selects k) : (run (su.withLimits l) fuel' s).selects k := by
  induction fuel generalizing s fuel' with
  | zero =>
    obtain ⟨c, hfound, hsel⟩ := hk
    have hkeys := hc.selected c (Candidates.mem_of_find? hfound) hsel
    rw [Candidates.key_of_find? hfound] at hkeys
    exact ⟨c, (find?_run_of_selected fuel' hkeys).trans hfound, hsel⟩
  | succ fuel ih =>
    obtain ⟨n, rfl⟩ : ∃ n, fuel' = n + 1 := ⟨fuel' - 1, by omega⟩
    cases hst : Scan.step su s with
    | stop t =>
      -- The scan ends here; under wider limits the same pass selects the same.
      simp only [run, hst] at hk
      rw [State.selects, (decisions_of_stop hst).candidates, ← hs.settled] at hk
      exact Scan.selects_run (hc.withLimits l) n hk
    | again t =>
      obtain ⟨hst', hrec⟩ := h.step hs hst
      simp only [run, hst, hst'] at hk ⊢
      -- Where recursion has been switched on, no pass follows the first one.
      have hle : fuel + 1 ≤ n + 1 := hfuel.resolve_right fun hne => hne.1 hrec
      exact ih ⟨h.widens, .inl hrec⟩ (hc.again hst) (.inl (by omega)) hk

theorem passBound_le : passBound su ≤ passBound (su.withLimits l) ∨
    su.recursive ≠ l.recursive ∧ 0 < passBound (su.withLimits l) := by
  have hrec : (su.withLimits l).recursive = l.recursive := rfl
  by_cases hne : su.recursive = l.recursive
  · left
    have hsteps := h.steps
    unfold passBound
    rw [hrec, hne]
    split
    · dsimp only [Setup.withLimits]
      omega
    · exact Nat.le_refl _
  · exact .inr ⟨hne, passBound_pos _⟩

end Limits.Covers
end Pass

section Evaluate

variable {sc sc' : Scanner} {books : List Book} {o : Options} {vars : Variables} {random : Random}
  {st : Settings}

def Options.withLimits (o : Options) (minActivations maxDepth : Int) : Options :=
  { o with minActivations, minActivationsDepth := maxDepth }

def limitsOf (sc : Scanner) (books : List Book) (o : Options) (fx : Effects) : Limits where
  steps := sc.maxRecursionSteps
  recursive := (setup sc books o fx).recursive
  minActivations := (setup sc books o fx).minActivations
  maxDepth := (setup sc books o fx).maxDepth

theorem recursionSteps_mono {r r' : Int} (h : r ≤ r') :
    Scanner.recursionSteps r ≤ Scanner.recursionSteps r' := by
  have hnat := Int.toNat_le_toNat h
  simp only [Scanner.recursionSteps, Nat.min_def]
  split <;> split <;> omega

theorem ofSettings_withSteps (h : Scanner.ofSettings st = .ok sc) (r : Int) :
    sc.maxRecursionSteps = Scanner.recursionSteps st.maxRecursionSteps ∧
      Scanner.ofSettings { st with maxRecursionSteps := r }
        = .ok { sc with maxRecursionSteps := Scanner.recursionSteps r } := by
  unfold Scanner.ofSettings at h ⊢
  cases he : st.estimator with
  | none =>
    rw [he] at h
    cases h
  | some est =>
    rw [he] at h
    dsimp only at h ⊢
    split at h
    · cases h
    · next hsize =>
      cases h
      exact ⟨rfl, if_neg hsize⟩

theorem covers_setup (books : List Book) (fx : Effects) {n : Nat} {m d : Int}
    (hr : sc.maxRecursionSteps ≤ n)
    (hm : o.minActivations = m ∨ 1 ≤ o.minActivations ∧ o.minActivations ≤ m)
    (hd : 0 < d → 0 < o.minActivationsDepth ∧ o.minActivationsDepth ≤ d) :
    (limitsOf { sc with maxRecursionSteps := n } books (o.withLimits m d) fx).Covers
      (setup sc books o fx) := by
  have hclamp (x : Int) : (if x < 0 then 0 else x) = max 0 x := by
    split <;> omega
  have hmin : (o.withLimits m d).minActivations = m := rfl
  have hw : (setup { sc with maxRecursionSteps := n } books (o.withLimits m d) fx).widens
      = (setup sc books o fx).widens := by
    rw [widens_setup, widens_setup, decide_eq_decide, hmin]
    omega
  refine ⟨hr, fun hrec => ?_, fun hrec => ?_, hw, ?_, ?_⟩
  · obtain ⟨hle, hpos, hany⟩ := recursive_setup.mp hrec
    exact (@recursive_setup _ _ _ fx).mpr ⟨by omega, Nat.lt_of_lt_of_le hpos hr, hany⟩
  · rw [← hw, widens_setup]
    exact decide_eq_false (@not_widening_of_recursive _ _ _ fx hrec)
  · simp only [limitsOf, setup, Options.withLimits, hclamp]
    omega
  · simp only [limitsOf, setup, Options.withLimits, hclamp]
    omega

theorem opening?_withLimits (sc : Scanner) (books : List Book) (o : Options) (vars : Variables)
    (random : Random) (n : Nat) (m d : Int) :
    opening? { sc with maxRecursionSteps := n } books (o.withLimits m d) vars random =
      (opening? sc books o vars random).map fun (su, s) =>
        (su.withLimits (limitsOf { sc with maxRecursionSteps := n } books (o.withLimits m d)
          su.effects), s) := by
  have hstarted : started? books (o.withLimits m d) vars = started? books o vars := rfl
  rw [opening?_eq_map, opening?_eq_map, hstarted, Option.map_map]
  rfl

/-- Every key that is selected is selected under wider limits as well: with more recursion steps,
with more activations asked for where the window is widened at all, and with a wider window or none
at all. -/
theorem selectedKeys_mono_limits {r m d : Int} {out : Outcome}
    (hr : st.maxRecursionSteps ≤ r)
    (hm : o.minActivations = m ∨ 1 ≤ o.minActivations ∧ o.minActivations ≤ m)
    (hd : 0 < d → 0 < o.minActivationsDepth ∧ o.minActivationsDepth ≤ d)
    (hsc : Scanner.ofSettings st = .ok sc)
    (h : (evaluate sc books o vars random).outcome = .ok out) :
    ∃ sc' out', Scanner.ofSettings { st with maxRecursionSteps := r } = .ok sc' ∧
      (evaluate sc' books (o.withLimits m d) vars random).outcome = .ok out' ∧
      ∀ e ∈ out.selectedEntries, ∃ e' ∈ out'.selectedEntries, e'.key = e.key := by
  obtain ⟨hsteps, hsc'⟩ := ofSettings_withSteps hsc r
  generalize hn : Scanner.recursionSteps r = n at hsc'
  have hle : sc.maxRecursionSteps ≤ n := by
    rw [hsteps, ← hn]
    exact recursionSteps_mono hr
  obtain ⟨hnone, rfl⟩ | ⟨su, s, hopen, rfl⟩ := evaluate_cases h
  · -- Nothing is triggered, whatever the limits are.
    have hok : Succeeds books o vars := evaluate_ok_iff.mp ⟨_, h⟩
    obtain ⟨out', hout'⟩ : ∃ out', (evaluate { sc with maxRecursionSteps := n } books
        (o.withLimits m d) vars random).outcome = .ok out' := evaluate_ok_iff.mpr hok
    exact ⟨_, out', hsc', hout', by simp [outcome, Outcome.selectedEntries, Outcome.selected]⟩
  have hopen' := opening?_withLimits sc books o vars random n m d
  rw [hopen, Option.map_some] at hopen'
  have hs := coherent_of_opening hopen
  obtain ⟨fx, log, rfl, rfl⟩ := opening?_eq_some hopen
  have hcovers := covers_setup books fx hle hm hd
  refine ⟨_, _, hsc', evaluate_of_opening hopen', fun e he => ?_⟩
  have hsel : (ending (setup sc books o fx) _).selects e.key :=
    (exists_selectedEntry_iff hs.ending).mp ⟨e, he, rfl⟩
  apply (exists_selectedEntry_iff (coherent_of_opening hopen').ending).mpr
  exact hcovers.selects_run ⟨hcovers.widens, .inr rfl⟩ hs hcovers.passBound_le hsel

def echoBook : Book where
  recursiveScanning := true
  entries := [{ uid := lit "1", constant := true, content := lit "dragon" },
    { uid := lit "2", keys := [lit "dragon"], content := lit "deep" }]

theorem selectedKeys_mono_limits_echoBook : ∃ sc sc' out out',
    Scanner.ofSettings { maxRecursionSteps := -1 } = .ok sc ∧
    Scanner.ofSettings { maxRecursionSteps := 99 } = .ok sc' ∧
    (evaluate sc [echoBook] {} [] (.ofList [])).outcome = .ok out ∧
    (evaluate sc' [echoBook] (Options.withLimits {} 0 0) [] (.ofList [])).outcome = .ok out' ∧
    out.selectedEntries.map (·.uid) = [lit "1"] ∧
    ∀ e ∈ out.selectedEntries, ∃ e' ∈ out'.selectedEntries, e'.key = e.key := by
  have hle : (-1 : Int) ≤ 99 := by decide
  obtain ⟨sc', out', hsc', hout', hall⟩ := @selectedKeys_mono_limits _ [echoBook] {} []
    (.ofList []) { maxRecursionSteps := -1 } 99 0 0 _ hle (.inl rfl) (by decide) rfl rfl
  exact ⟨_, sc', _, out', rfl, hsc', rfl, hout', by decide, hall⟩

end Evaluate
end Lorebook.Scan
