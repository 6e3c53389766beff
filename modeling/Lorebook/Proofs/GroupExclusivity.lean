import Lorebook.Proofs.Coherence

set_option autoImplicit false

/-!
Inclusion groups over a whole scan: the selected candidates of a group are sticky, or there is at
most one. That a later pass adds no sticky candidate to a group that has a winner rests on the first
pass: it selects every sticky entry that can be activated at all, or the scan ends with it.
-/

namespace Lorebook.Scan

structure Wins (s : State) (g : Bytes) (c : Candidate) : Prop where
  mem : c ∈ s.candidates
  selected : c.isSelected = true
  group : g ∈ c.entry.groupNames

def Exclusive (su : Setup) (s : State) (g : Bytes) : Prop :=
  (∀ c, Wins s g c → su.stickyActive c.key = true) ∨
    ∀ c d, Wins s g c → Wins s g d → c.key = d.key

/-- Every sticky entry that is not held back has been selected. -/
def StickySpent (su : Setup) (s : State) : Prop :=
  ∀ e ∈ su.entries, e.enabled = true → su.effects.delayActive e = false →
    su.stickyActive e.key = true → e.key ∈ s.selectedKeys

section Sticky

variable {su : Setup} {s : State} {e : Entry} {k : Bytes}

theorem eligible_of_sticky (hen : e.enabled = true) (hdelay : su.effects.delayActive e = false)
    (hsticky : su.stickyActive e.key = true) (hsel : e.key ∉ s.selectedKeys)
    (hfail : e.key ∉ s.failedKeys) : eligible su s e = true := by
  simp [eligible, hen, hdelay, hsticky, hsel, hfail]

theorem mem_activatedKeys_of_sticky (he : e ∈ su.entries) (hen : e.enabled = true)
    (hdelay : su.effects.delayActive e = false) (hsticky : su.stickyActive e.key = true)
    (hsel : e.key ∉ s.selectedKeys) (hfail : e.key ∉ s.failedKeys) :
    e.key ∈ activatedKeys su s := by
  obtain ⟨tr, htr⟩ := trigger?_of_sticky (s := s) hsticky
  have hel := eligible_of_sticky hen hdelay hsticky hsel hfail
  exact List.mem_map.mpr ⟨(e, tr), mem_activated.mpr ⟨he, hel, htr⟩, rfl⟩

theorem not_delayActive_of_eligible (h : eligible su s e = true) :
    su.effects.delayActive e = false := by
  simp only [eligible, Bool.and_eq_true, Bool.not_eq_true'] at h
  exact h.1.2

theorem stickyActive_of_groupSticky (hs : Coherent su s) (h : groupSticky su s k = true) :
    su.stickyActive k = true := by
  simp only [groupSticky, Bool.or_eq_true, Option.any_eq_true, decide_eq_true_eq] at h
  rcases h with h | ⟨c, hc, hkind⟩
  · exact h
  · have hsticky := (hs.sound c (Candidates.mem_of_find? hc)).sticky hkind
    rwa [Candidates.key_of_find? hc] at hsticky

/-- Groups do not drop sticky candidates. -/
theorem mem_kept_of_sticky (hk : k ∈ activatedKeys su s) (hsticky : su.stickyActive k = true) :
    k ∈ kept su s := by
  refine mem_resolveGroups.mpr ⟨(lineup_perm su s).mem_iff.mpr hk, fun hr => ?_⟩
  have hnot := (drawnFrom_finalDraw su (enlisted su s) (lineup su s)).notSticky k hr
  simp [groupSticky, hsticky] at hnot

/-- A pass decides about every sticky entry that is still to be decided about, and it need not
roll. -/
theorem decisive_settled (hs : Coherent su s) (hk : k ∈ activatedKeys su s)
    (hsticky : su.stickyActive k = true) : ∃ c, Decisive su (settled su s) k c := by
  have hbare : (resolved su s).candidates.bare = (enlisted su s).candidates.bare :=
    resolveGroups_bare su _ _
  obtain ⟨d, hd⟩ := Option.isSome_iff_exists.mp (isSome_find?_enlisted hk)
  obtain ⟨c, hc, _⟩ := Candidates.exists_find?_of_bare hbare hd
  have hcalm : rolls su c.entry = false := by
    rw [rolls, hs.resolved.entry_key hc, hsticky, Bool.not_true, Bool.and_false]
  exact decisive_accept (mem_kept_of_sticky hk hsticky) hc hcalm

/-- A pass in which the budget lasts leaves no sticky entry behind. -/
theorem stickySpent_settled (hs : Coherent su s) (ho : (settled su s).overflowed = false) :
    StickySpent su (settled su s) := by
  intro e he hen hdelay hsticky
  by_cases hsel : e.key ∈ s.selectedKeys
  · exact selectedKeys_settled hsel
  have hfail : e.key ∉ s.failedKeys := by
    intro hf
    rw [hs.failed e.key hf] at hsticky
    cases hsticky
  have hact := mem_activatedKeys_of_sticky he hen hdelay hsticky hsel hfail
  obtain ⟨c, hc⟩ := decisive_settled hs hact hsticky
  rcases hc.fate with ⟨_, hk⟩ | ⟨_, hover, _⟩
  · exact hk
  · rw [ho] at hover
    cases hover

end Sticky

section Pass

variable {su : Setup} {s : State} {g : Bytes}

theorem entryAt_of_mem_settled (hs : Coherent su s) {c : Candidate}
    (hc : c ∈ (settled su s).candidates) : (enlisted su s).entryAt c.key = c.entry := by
  have hfound := Candidates.find?_of_mem hs.settled.nodup hc
  obtain ⟨d, hd, hdc⟩ := Candidates.exists_find?_of_bare (settled_bare su s).symm hfound
  have hentry : d.bare.entry = c.bare.entry := by rw [hdc]
  simpa [State.entryAt, hd, Candidate.bare] using hentry

/-- The winners after a pass were there before it, or are among those that the groups left. -/
theorem Wins.of_settled (hs : Coherent su s) {c : Candidate} (h : Wins (settled su s) g c) :
    (Wins s g c ∧ g ∈ s.selectedGroups) ∨
      c.key ∈ (kept su s).filter fun k => g ∈ ((enlisted su s).entryAt k).groupNames := by
  obtain ⟨hc, hsel, hg⟩ := h
  rcases selected_settled hs hc hsel with ⟨hmem, _⟩ | ⟨hk, _⟩
  · exact .inl ⟨⟨hmem, hsel, hg⟩, hs.groups c hmem hsel g hg⟩
  · right
    rw [List.mem_filter, entryAt_of_mem_settled hs hc]
    exact ⟨hk, by simpa using hg⟩

/-- Sticky entries are activated in the first pass only. -/
theorem not_sticky_of_spent (hspent : StickySpent su s) {k : Bytes} (hk : k ∈ activatedKeys su s) :
    su.stickyActive k = false := by
  obtain ⟨⟨e, tr⟩, hm, rfl⟩ := List.mem_map.mp hk
  obtain ⟨he, hel, _⟩ := mem_activated.mp hm
  cases hsticky : su.stickyActive e.key with
  | false => rfl
  | true =>
    have hsel := hspent e he (enabled_of_eligible hel) (not_delayActive_of_eligible hel) hsticky
    exact absurd hsel (not_mem_of_eligible hel).1

theorem Exclusive.mono {t : State} (h : Exclusive su s g)
    (hsub : ∀ c, Wins t g c → Wins s g c) : Exclusive su t g := by
  rcases h with h | h
  · exact .inl fun c hc => h c (hsub c hc)
  · exact .inr fun c d hc hd => h c d (hsub c hc) (hsub d hd)

theorem exclusive_settled (hs : Coherent su s) (hex : Exclusive su s g)
    (hfirst : s.selectedKeys = [] ∨ StickySpent su s) : Exclusive su (settled su s) g := by
  have hgroups : (enlisted su s).selectedGroups = s.selectedGroups :=
    (enlisted_ledger su s).selectedGroups
  have hres : Resolved su (enlisted su s) g
      ((kept su s).filter fun k => g ∈ ((enlisted su s).entryAt k).groupNames) :=
    resolveGroups_exclusive su (enlisted su s) (lineup su s) g
  rcases hres with hsticky | ⟨hone, hnone⟩
  · rcases hfirst with hempty | hspent
    · left
      intro c hc
      rcases hc.of_settled hs with ⟨hold, _⟩ | hnew
      · have hkey := hs.selected c hold.mem hold.selected
        rw [hempty] at hkey
        cases hkey
      · exact stickyActive_of_groupSticky hs.enlisted (hsticky c.key hnew)
    · -- What the groups leave would have to be sticky, and no sticky entry comes up again.
      apply hex.mono
      intro c hc
      rcases hc.of_settled hs with ⟨hold, _⟩ | hnew
      · exact hold
      · have hact := mem_kept (List.mem_filter.mp hnew).1
        have hactive := stickyActive_of_groupSticky hs.enlisted (hsticky c.key hnew)
        rw [not_sticky_of_spent hspent hact] at hactive
        cases hactive
  · by_cases hg : g ∈ s.selectedGroups
    · -- The group has its winner.
      apply hex.mono
      intro c hc
      rcases hc.of_settled hs with ⟨hold, _⟩ | hnew
      · exact hold
      · rw [hnone (hgroups ▸ hg)] at hnew
        cases hnew
    · right
      intro c d hc hd
      rcases hc.of_settled hs with ⟨_, hc⟩ | hc
      · exact absurd hc hg
      rcases hd.of_settled hs with ⟨_, hd⟩ | hd
      · exact absurd hd hg
      exact hone c.key hc d.key hd

end Pass

section Run

variable {su : Setup} {s : State} {g : Bytes}

/-- What holds of a group whenever a pass begins. -/
structure Contested (su : Setup) (g : Bytes) (s : State) : Prop where
  coherent : Coherent su s
  exclusive : Exclusive su s g
  spent : s.selectedKeys = [] ∨ StickySpent su s

theorem Exclusive.same {t : State} (h : Exclusive su s g) (hst : SameDecisions s t) :
    Exclusive su t g := by
  apply h.mono
  rintro c ⟨hc, hsel, hg⟩
  rw [hst.candidates] at hc
  exact ⟨hc, hsel, hg⟩

theorem Contested.exclusive_step (h : Contested su g s) : Exclusive su (step su s).state g :=
  (exclusive_settled h.coherent h.exclusive h.spent).same (step_decisions su s)

theorem Contested.again {t : State} (h : Contested su g s) (hst : step su s = .again t) :
    Contested su g t := by
  have hd := decisions_of_again hst
  have hex := exclusive_settled h.coherent h.exclusive h.spent
  have hspent := stickySpent_settled h.coherent (not_overflowed_of_again hst)
  refine ⟨h.coherent.settled.same hd, hex.same hd, .inr ?_⟩
  intro e he hen hdelay hsticky
  rw [hd.selectedKeys]
  exact hspent e he hen hdelay hsticky

theorem contested_initial (su : Setup) (random : Random) (log : List Bytes) (g : Bytes) :
    Contested su g (.initial su random log) := by
  refine ⟨.initial su random log, .inl ?_, .inl rfl⟩
  rintro c ⟨hc, _, _⟩
  cases hc

theorem Contested.ending (h : Contested su g s) : Exclusive su (ending su s) g :=
  run_ends (fun _ _ hs hst => hs.again hst) (fun _ hs => hs.exclusive_step)
    (fun _ hs => hs.exclusive) _ s h

end Run

section Evaluate

variable {sc : Scanner} {books : List Book} {o : Options} {vars : Variables} {random : Random}

/-- Of each group the selected candidates are all sticky when the scan begins, or there is at most
one. -/
theorem groups_exclusive {out : Outcome}
    (h : (evaluate sc books o vars random).outcome = .ok out) (g : Bytes) :
    (∃ su s, opening? sc books o vars random = some (su, s) ∧
      ∀ c ∈ out.selected, g ∈ c.entry.groupNames → su.stickyActive c.entry.key = true) ∨
    (out.selected.filter fun c => g ∈ c.entry.groupNames).length ≤ 1 := by
  obtain ⟨_, rfl⟩ | ⟨su, s, hsome, rfl⟩ := evaluate_cases h
  · right
    exact Nat.zero_le 1
  have hs := coherent_of_opening hsome
  have hwins {c : Candidate} (hc : c ∈ (ending su s).candidates.filter (·.isSelected))
      (hg : g ∈ c.entry.groupNames) : Wins (ending su s) g c := by
    obtain ⟨hmem, hsel⟩ := List.mem_filter.mp hc
    exact ⟨hmem, hsel, hg⟩
  have hex : Exclusive su (ending su s) g := by
    obtain ⟨_, log, _, rfl⟩ := opening?_eq_some hsome
    exact (contested_initial su random log g).ending
  rcases hex with hsticky | hone
  · left
    refine ⟨su, s, hsome, fun c hc hg => ?_⟩
    have hw := hwins hc hg
    rw [(hs.ending.sound c hw.mem).entry_key]
    exact hsticky c hw
  · right
    apply Candidates.length_le_one
    · exact hs.ending.nodup.sublist ((List.filter_sublist.trans List.filter_sublist).map _)
    · intro c hc d hd
      obtain ⟨hc, hcg⟩ := List.mem_filter.mp hc
      obtain ⟨hd, hdg⟩ := List.mem_filter.mp hd
      exact hone c d (hwins hc (by simpa using hcg)) (hwins hd (by simpa using hdg))

def rivalBook : Book where
  entries := [{ uid := lit "1", constant := true, group := lit "g" },
    { uid := lit "2", constant := true, group := lit "g", groupOverride := true }]

theorem groups_exclusive_rivalBook : ∃ out,
    (evaluate .standard [rivalBook] {} [] (.ofList [])).outcome = .ok out ∧
    out.candidates.length = 2 ∧
    ((∃ su s, opening? .standard [rivalBook] {} [] (.ofList []) = some (su, s) ∧
        ∀ c ∈ out.selected, lit "g" ∈ c.entry.groupNames →
          su.stickyActive c.entry.key = true) ∨
      (out.selected.filter fun c => lit "g" ∈ c.entry.groupNames).length ≤ 1) :=
  ⟨_, rfl, rfl, groups_exclusive rfl (lit "g")⟩

end Evaluate
end Lorebook.Scan
