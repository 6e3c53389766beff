import Lorebook.Proofs.Accounting
import Lorebook.Proofs.Order

set_option autoImplicit false

/-!
What a budget is good for: candidates that have to keep to it take no more than it allows, and once
one does not fit, none that stands behind it in the lineup is selected, nor does another pass begin.
-/

namespace Lorebook.Scan

/-- The state of a pass when acceptance has gone through the first keys of its lineup. -/
def midway (su : Setup) (s : State) (ks : List Bytes) : State :=
  (accept su (resolved su s) (ks.filter (· ∈ kept su s))).1

/-- In the lineup of a pass the candidate behind some first keys is the one that does not fit. -/
structure Overflows (su : Setup) (s : State) (pre : List Bytes) (k : Bytes) : Prop where
  before : (midway su s pre).overflowed = false
  after : (midway su s (pre ++ [k])).overflowed = true

section Midway

variable {su : Setup} {s : State} {k : Bytes} {pre post : List Bytes}

theorem midway_append (su : Setup) (s : State) (as bs : List Bytes) :
    midway su s (as ++ bs) = (accept su (midway su s as) (bs.filter (· ∈ kept su s))).1 := by
  rw [midway, List.filter_append, accept_append]
  rfl

theorem midway_lineup (su : Setup) (s : State) : midway su s (lineup su s) = settled su s := by
  have hkept : (lineup su s).filter (· ∈ kept su s) = kept su s := by
    apply List.filter_congr
    intro x hx
    simp only [decide_eq_decide]
    exact ⟨fun h => (mem_resolveGroups.mp h).2, fun h => mem_resolveGroups.mpr ⟨hx, h⟩⟩
  rw [midway, hkept]
  rfl

theorem Overflows.exceeds (h : Overflows su s pre k) : k ∈ kept su s ∧
    ∃ c, (midway su s pre).candidates.find? k = some c ∧ exceeds su (midway su s pre) c = true := by
  obtain ⟨hbefore, hafter⟩ := h
  rw [midway_append] at hafter
  by_cases hk : k ∈ kept su s
  · simp only [hk, decide_true, List.filter_cons_of_pos, List.filter_nil] at hafter
    rw [accept_cons] at hafter
    cases hc : (midway su s pre).candidates.find? k with
    | none =>
      rw [hc] at hafter
      rw [accept, hbefore] at hafter
      cases hafter
    | some c =>
      rw [hc] at hafter
      refine ⟨hk, c, rfl, ?_⟩
      revert hafter
      dsimp only [accept]
      apply acceptOne_elim (P := fun r => r.1.overflowed = true →
        Scan.exceeds su (midway su s pre) c = true)
      intro r hr ho
      cases hr with
      | late hlate _ =>
        rw [hbefore] at hlate
        cases hlate
      | failed r _ =>
        have hno : (midway su s pre).overflowed = true := ho
        rw [hbefore] at hno
        cases hno
      | overrun r _ hx => exact hx
      | taken r _ _ =>
        have hno : (midway su s pre).overflowed = true := ho
        rw [hbefore] at hno
        cases hno
  · rw [List.filter_cons_of_neg (by simpa using hk), List.filter_nil, accept, hbefore] at hafter
    cases hafter

end Midway

/-- The budget has overflowed, and a candidate that has to keep to it is not selected. -/
structure Barred (s : State) (k : Bytes) : Prop where
  overflowed : s.overflowed = true
  unselected : ∀ c, s.candidates.find? k = some c → c.entry.ignoreBudget = false →
    c.isSelected = false

section Barred

variable {su : Setup} {s : State} {k : Bytes}

theorem acceptOne_bars {c : Candidate} (ho : s.overflowed = true)
    (hc : s.candidates.find? k = some c) : Barred (acceptOne su s c).1 k := by
  refine ⟨overflowed_acceptOne ho, ?_⟩
  obtain rfl := Candidates.key_of_find? hc
  apply acceptOne_elim (P := fun r => ∀ d, r.1.candidates.find? c.key = some d →
    d.entry.ignoreBudget = false → d.isSelected = false)
  intro r hr d hd hi
  cases hr with
  | late _ _ => exact Candidates.not_selected_of_dropped _ _ hd
  | failed r _ => exact Candidates.not_selected_of_dropped _ _ hd
  | overrun r _ _ => exact Candidates.not_selected_of_dropped _ _ hd
  | taken r hlate _ =>
    -- Past the overflow only a candidate that ignores the budget is taken.
    have hfound : (s.candidates.setFate c.key .selected).find? c.key = some d := hd
    rw [Candidates.find?_setFate_self, hc, Option.map_some] at hfound
    cases hfound
    rw [hlate ho] at hi
    cases hi

theorem Barred.acceptOne (h : Barred s k) {k' : Bytes} {c : Candidate}
    (hc : s.candidates.find? k' = some c) : Barred (acceptOne su s c).1 k := by
  have hck := Candidates.key_of_find? hc
  by_cases hk : k = k'
  · subst hk
    exact acceptOne_bars h.overflowed hc
  · refine ⟨overflowed_acceptOne h.overflowed, ?_⟩
    rw [find?_acceptOne_of_ne (by rwa [hck])]
    exact h.unselected

theorem Barred.accept (h : Barred s k) (ks : List Bytes) : Barred (accept su s ks).1 k :=
  accept_keeps (P := fun t => Barred t k) (fun _ _ _ _ hc ht => ht.acceptOne hc) h

/-- Behind an overflow acceptance selects only what ignores the budget. -/
theorem accept_bars {ks : List Bytes} (ho : s.overflowed = true) (hk : k ∈ ks) :
    Barred (accept su s ks).1 k := by
  induction ks generalizing s with
  | nil => cases hk
  | cons k' ks ih =>
    rw [accept_cons]
    cases hc : s.candidates.find? k' with
    | none =>
      dsimp only
      rcases List.mem_cons.mp hk with rfl | hk
      · have hbar : Barred s k := ⟨ho, fun c hfound _ => by rw [hc] at hfound; cases hfound⟩
        exact hbar.accept ks
      · exact ih ho hk
    | some c =>
      dsimp only
      rcases List.mem_cons.mp hk with rfl | hk
      · have hbar : Barred (acceptOne su s c).1 k := acceptOne_bars ho hc
        exact hbar.accept ks
      · exact ih (overflowed_acceptOne ho) hk

end Barred

section Inversion

variable {su : Setup} {s : State} {k : Bytes} {pre post : List Bytes}

theorem Overflows.not_selected (h : Overflows su s pre k) (hs : Coherent su s)
    (hl : lineup su s = pre ++ k :: post) {c : Candidate} (hc : c ∈ (settled su s).candidates)
    (hpost : c.key ∈ post) (hi : c.entry.ignoreBudget = false) : c.isSelected = false := by
  have hmem : c.key ∈ lineup su s := by simp [hl, hpost]
  have hfound := Candidates.find?_of_mem hs.settled.nodup hc
  by_cases hk : c.key ∈ kept su s
  · have hsettled : settled su s
        = (accept su (midway su s (pre ++ [k])) (post.filter (· ∈ kept su s))).1 := by
      rw [← midway_lineup, ← midway_append, hl, List.append_assoc]
      rfl
    rw [hsettled] at hfound
    have hrest : c.key ∈ post.filter (· ∈ kept su s) := by simp [hpost, hk]
    have hbar : Barred (accept su (midway su s (pre ++ [k])) (post.filter (· ∈ kept su s))).1 c.key :=
      accept_bars h.after hrest
    exact hbar.unselected c hfound hi
  · -- The groups have dropped it, and earlier passes had not selected it.
    have hfree := not_mem_selectedKeys_of_lineup hmem
    cases hsel : c.isSelected with
    | false => rfl
    | true =>
      rcases selected_settled hs hc hsel with ⟨_, hold⟩ | ⟨hnew, _⟩
      · exact absurd hold hfree
      · exact absurd hnew hk

theorem Overflows.stops (h : Overflows su s pre k) (hl : lineup su s = pre ++ k :: post) :
    ∃ t, step su s = .stop t := by
  apply step_of_overflowed
  have happ : lineup su s = (pre ++ [k]) ++ post := by simp [hl]
  rw [← midway_lineup, happ, midway_append]
  exact overflowed_accept _ h.after

end Inversion
section Evaluate

variable {sc : Scanner} {books : List Book} {o : Options} {vars : Variables} {random : Random}

theorem tokenSum_bounded (out : Outcome) :
    tokenSum (out.selected.filter (!·.entry.ignoreBudget))
      = out.candidates.total Candidate.claim := by
  have hfilter : out.selected.filter (!·.entry.ignoreBudget)
      = out.candidates.filter fun c => c.isSelected && !c.entry.ignoreBudget := by
    simp only [Outcome.selected, List.filter_filter]
    apply List.filter_congr
    intro c _
    exact Bool.and_comm _ _
  rw [hfilter, tokenSum, Candidates.total_filter]
  congr 1
  funext c
  cases hi : c.entry.ignoreBudget <;> simp [Candidate.claim, Candidate.cost, hi]

/-- Under a budget `B` the selected candidates that have to keep to it take at most `B` tokens, as
long as all that is charged fits the range. When a candidate overflows it, none of those behind it
in the order of the pass is selected unless it ignores the budget, and the pass is the last one. -/
theorem budget_respected {out : Outcome} {B : Int}
    (h : (evaluate sc books o vars random).outcome = .ok out) (hB : out.budget = some B) :
    (tokenSum out.selected + tokenSum (revisitsOf sc books o vars random) ≤ Bounded.max →
      tokenSum (out.selected.filter (!·.entry.ignoreBudget)) ≤ B) ∧
    ∀ su s₀, opening? sc books o vars random = some (su, s₀) →
      ∀ s ∈ trace su (passBound su) s₀,
        ((lineup su s).Pairwise fun k k' =>
          entryLe su ((enlisted su s).entryAt k) ((enlisted su s).entryAt k') = true) ∧
        ∀ pre k post, lineup su s = pre ++ k :: post → Overflows su s pre k →
          (∀ c ∈ out.candidates, c.key ∈ post → c.entry.ignoreBudget = false →
            c.isSelected = false) ∧
          step su s = .stop (ending su s₀) := by
  obtain ⟨hnone, rfl⟩ | ⟨su, s₀, hsome, rfl⟩ := evaluate_cases h
  · refine ⟨fun _ => ?_, fun su s₀ hopen => ?_⟩
    · have hpos := (Option.filter_eq_some_iff.mp hB).2
      exact Int.le_of_lt (of_decide_eq_true hpos)
    · rw [hnone] at hopen
      cases hopen
  have hs₀ := coherent_of_opening hsome
  refine ⟨fun hfit => ?_, fun su' s₀' hopen s hs => ⟨lineup_pairwise su' s, ?_⟩⟩
  · have htally := tally_of_opening hsome
    have hbudget : su.budget = some B := by
      obtain ⟨_, _, rfl, _⟩ := opening?_eq_some hsome
      exact hB
    rw [tokenSum_bounded]
    apply htally.cap B hbudget
    have hrevisits : revisitsOf sc books o vars random = revisits su s₀ := by
      simp [revisitsOf, hsome]
    rw [tokenSum_selected, hrevisits] at hfit
    exact hfit
  · rw [hsome] at hopen
    cases hopen
    intro pre k post hl hover
    obtain ⟨t, ht⟩ := hover.stops hl
    have hend : ending su s₀ = t := run_of_stop hs ht
    have hcs : (ending su s₀).candidates = (settled su s).candidates := by
      rw [hend, (decisions_of_stop ht).candidates]
    refine ⟨?_, by rw [hend, ht]⟩
    intro c hc hpost hi
    have hmem : c ∈ (settled su s).candidates := hcs ▸ hc
    exact hover.not_selected (hs₀.of_mem_trace hs) hl hmem hpost hi

theorem budget_respected_constantTrio : ∃ out,
    (evaluate .standard [.constantTrio] { tokenBudget := some 1 } [] (.ofList [])).outcome
      = .ok out ∧
    tokenSum (out.selected.filter (!·.entry.ignoreBudget)) ≤ 1 ∧
    ∃ su s, opening? .standard [.constantTrio] { tokenBudget := some 1 } [] (.ofList [])
        = some (su, s) ∧
      (∀ c ∈ out.candidates, c.key ∈ [lit "unknown:unnamed.3"] → c.entry.ignoreBudget = false →
        c.isSelected = false) ∧
      step su s = .stop (ending su s) := by
  obtain ⟨hcap, hpass⟩ := @budget_respected .standard [.constantTrio] { tokenBudget := some 1 } []
    (.ofList []) _ 1 rfl rfl
  refine ⟨_, rfl, hcap (by decide), _, _, rfl, ?_⟩
  exact (hpass _ _ rfl _ List.mem_cons_self).2 [lit "unknown:unnamed.1"] (lit "unknown:unnamed.2")
    [lit "unknown:unnamed.3"] rfl ⟨rfl, rfl⟩

end Evaluate
end Lorebook.Scan
