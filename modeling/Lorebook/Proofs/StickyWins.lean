import Lorebook.Proofs.Gating
import Lorebook.Proofs.GroupExclusivity

set_option autoImplicit false

/-!
Sticky entries win: each comes up in the first pass, no group drops it and it does not roll. Only
the budget can keep it out, and that ends the scan.
-/

namespace Lorebook.Scan

section Run

variable {su : Setup} {s : State} {e : Entry}

theorem accept_unlimited (hb : su.budget = none) (ho : s.overflowed = false) (ks : List Bytes) :
    (accept su s ks).1.overflowed = false := by
  apply accept_keeps (P := fun t => t.overflowed = false)
  · intro t k c _ _ ht
    apply acceptOne_elim (P := fun r => r.1.overflowed = false)
    intro r hr
    cases hr with
    | late _ _ => exact ht
    | failed r _ => exact ht
    | overrun r _ he => simp [exceeds, hb] at he
    | taken r _ _ => exact ht
  · exact ho

theorem settled_unlimited (hb : su.budget = none) (ho : s.overflowed = false) :
    (settled su s).overflowed = false := by
  apply accept_unlimited hb
  have hled := (enlisted_ledger su s).overflowed
  exact hled.trans ho

theorem Decisive.run {k : Bytes} {c : Candidate} (h : Decisive su (settled su s) k c) (fuel : Nat) :
    (run su (fuel + 1) s).candidates.find? k = some c := by
  cases hst : step su s with
  | stop t =>
    simp only [Scan.run, hst]
    exact (h.same (decisions_of_stop hst)).found
  | again t =>
    simp only [Scan.run, hst]
    have ht := h.same (decisions_of_again hst)
    have ho := not_overflowed_of_again hst
    -- The scan goes on only if the budget has lasted.
    rcases h.fate with ⟨_, hsel⟩ | ⟨_, hover, _⟩
    · rw [← (decisions_of_again hst).selectedKeys] at hsel
      rw [find?_run_of_selected fuel hsel, ht.found]
    · rw [ho] at hover
      cases hover

theorem decisive_ending (random : Random) (log : List Bytes) (he : e ∈ su.entries)
    (hen : e.enabled = true) (hdelay : su.effects.delayActive e = false)
    (hsticky : su.stickyActive e.key = true) :
    ∃ c, Decisive su (settled su (.initial su random log)) e.key c ∧
      (ending su (.initial su random log)).candidates.find? e.key = some c := by
  have hact : e.key ∈ activatedKeys su (.initial su random log) :=
    mem_activatedKeys_of_sticky he hen hdelay hsticky (by simp [State.initial])
      (by simp [State.initial])
  obtain ⟨c, hc⟩ := decisive_settled (.initial su random log) hact hsticky
  obtain ⟨n, hn⟩ := Nat.exists_eq_succ_of_ne_zero (Nat.ne_of_gt (passBound_pos su))
  refine ⟨c, hc, ?_⟩
  rw [ending, hn]
  exact hc.run n

end Run

section Evaluate

variable {sc : Scanner} {books : List Book} {o : Options} {vars : Variables} {random : Random}

theorem evaluate_budget {out : Outcome} (h : (evaluate sc books o vars random).outcome = .ok out) :
    out.budget = o.budget books := by
  obtain ⟨_, rfl⟩ | ⟨su, s, _, rfl⟩ := evaluate_cases h
  · rfl
  · rfl

/-- A sticky entry that takes part and is not delayed is selected, or the budget keeps it out. It is
selected if it ignores the budget or if there is none. -/
theorem sticky_selected_or_exhausted {su : Setup} {s : State}
    (h : opening? sc books o vars random = some (su, s)) :
    ∃ out, (evaluate sc books o vars random).outcome = .ok out ∧
      ∀ e ∈ triggeredEntries books o.generation, e.enabled = true →
        su.effects.delayActive e = false → su.effects.stickyActive e.key = true →
        ∃ c ∈ out.candidates, c.entry.key = e.key ∧
          (c.isSelected = true ∨ c.dropReason? = some .budgetExhausted) ∧
          (c.entry.ignoreBudget = true ∨ out.budget = none → c.isSelected = true) := by
  refine ⟨_, evaluate_of_opening h, fun e he hen hdelay hsticky => ?_⟩
  have hend := (coherent_of_opening h).ending
  obtain ⟨fx, log, rfl, rfl⟩ := opening?_eq_some h
  obtain ⟨c, hc, hfound⟩ := decisive_ending random log he hen hdelay hsticky
  refine ⟨c, Candidates.mem_of_find? hfound, hend.entry_key hfound, ?_⟩
  rcases hc.fate with ⟨hf, _⟩ | ⟨hf, ho, hi⟩
  · simp [Candidate.isSelected, hf]
  · refine ⟨.inr (by simp [Candidate.dropReason?, hf]), ?_⟩
    rintro (hig | hb)
    · rw [hi] at hig
      cases hig
    · rw [settled_unlimited hb rfl] at ho
      cases ho

def outvotedBook : Book where
  entries := [
    { uid := lit "1", keys := [lit "never"], dontActivate := true, probability := 0,
      excludeRecursion := true, delayUntilRecursion := some 2, group := lit "g",
      sticky := some 9, cooldown := some 9 },
    { uid := lit "2", constant := true, group := lit "g", groupOverride := true }]

def outvotedVars : Variables :=
  let records := [(lit "unknown:unnamed.1", Effects.record 1 9 false)]
  [(Effects.defaultKey,
    Effects.stored (Effects.setRecords (Effects.setRecords Effects.emptyState .sticky records)
      .cooldown records))]

theorem sticky_selected_or_exhausted_outvoted : ∃ su s out,
    opening? .standard [outvotedBook] { messageCount := some 4 } outvotedVars (.ofList [])
      = some (su, s) ∧
    (evaluate .standard [outvotedBook] { messageCount := some 4 } outvotedVars
      (.ofList [])).outcome = .ok out ∧
    su.effects.cooldownActive (lit "unknown:unnamed.1") = true ∧
    ∃ c ∈ out.candidates, c.entry.key = lit "unknown:unnamed.1" ∧ c.isSelected = true := by
  have hcheck : (opening? .standard [outvotedBook] { messageCount := some 4 } outvotedVars
      (.ofList [])).any (fun p => p.1.effects.stickyActive (lit "unknown:unnamed.1")
        && p.1.effects.cooldownActive (lit "unknown:unnamed.1")) = true := by
    decide +kernel
  obtain ⟨⟨su, s⟩, hopen, hactive⟩ := (Option.any_eq_true _ _).mp hcheck
  obtain ⟨hsticky, hcooldown⟩ := (Bool.and_eq_true _ _).mp hactive
  obtain ⟨out, hout, hwins⟩ := sticky_selected_or_exhausted hopen
  have hbudget : out.budget = none := (evaluate_budget hout).trans (by decide)
  obtain ⟨e, he, hen, hdelay, hkey⟩ : ∃ e ∈ triggeredEntries [outvotedBook] .normal,
      e.enabled = true ∧ e.delay = none ∧ e.key = lit "unknown:unnamed.1" := by decide
  obtain ⟨c, hc, hck, _, hsel⟩ := hwins e he hen (by simp [Effects.delayActive, hdelay])
    (hkey.symm ▸ hsticky)
  exact ⟨su, s, out, hopen, hout, hcooldown, c, hc, hck.trans hkey, hsel (.inr hbudget)⟩

end Evaluate
end Lorebook.Scan
