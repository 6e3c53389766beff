import Lorebook.Proofs.Coherence

set_option autoImplicit false

/-!
A larger budget selects no less, as long as nothing rolls. Two scans that differ in the budget only
go through the same states until the smaller budget overflows. What the one with the smaller budget
selects after that ignores the budget, and the other one selects it too.
-/

namespace Lorebook.Scan

def Setup.withBudget (su : Setup) (b : Option Int) : Setup := { su with budget := b }

/-- No entry rolls, nor does a forced variant of one. -/
def NeverRolls (su : Setup) : Prop :=
  ∀ e ∈ su.entries, rolls su e = false ∧
    ∀ o, su.forced.find? e = some o → rolls su (e.overridden o) = false

def Options.withBudget (o : Options) (t : Option Int) : Options := { o with tokenBudget := t }

def State.selects (s : State) (k : Bytes) : Prop :=
  ∃ c, s.candidates.find? k = some c ∧ c.isSelected = true

section Rolls

variable {su : Setup}

theorem rolls_recursiveVariant (su : Setup) (e : Entry) :
    rolls su e.recursiveVariant = rolls su e := by
  have h := e.beyond_recursiveVariant
  simp only [rolls, h.key, h.useProbability, h.probability]

theorem NeverRolls.form (h : NeverRolls su) {e v : Entry} (he : e ∈ su.entries)
    (hf : Form su e v) : rolls su v = false := by
  cases hf with
  | plain => exact (h e he).1
  | recursive =>
    rw [rolls_recursiveVariant]
    exact (h e he).1
  | forced ho => exact (h e he).2 _ ho

def Calm (su : Setup) (s : State) : Prop := ∀ c ∈ s.candidates, rolls su c.entry = false

theorem Calm.of_bare {s t : State} (h : Calm su s) (ht : t.candidates.bare = s.candidates.bare) :
    Calm su t := by
  intro c hc
  obtain ⟨d, hd, hdc⟩ := Candidates.exists_of_bare ht hc
  have hentry : d.bare.entry = c.bare.entry := by rw [hdc]
  simp only [Candidate.bare] at hentry
  rw [← hentry]
  exact h d hd

theorem NeverRolls.calm (h : NeverRolls su) {s : State} (hs : Coherent su s) : Calm su s := by
  intro c hc
  obtain ⟨e, he, _, hf⟩ := (hs.sound c hc).form
  exact h.form he hf

end Rolls

/-- The states of two scans after the one with the smaller budget has overflowed. -/
structure Dominated (s t : State) : Prop where
  bare : t.candidates.bare = s.candidates.bare
  overflowed : s.overflowed = true
  selects : ∀ k, s.selects k → t.selects k

/-- The states of two scans at the same place of a pass. -/
def Ahead (s t : State) : Prop := t = s ∨ Dominated s t

theorem Ahead.bare {s t : State} (h : Ahead s t) : t.candidates.bare = s.candidates.bare := by
  rcases h with rfl | h
  · rfl
  · exact h.bare

theorem Ahead.selects {s t : State} (h : Ahead s t) {k : Bytes} (hk : s.selects k) :
    t.selects k := by
  rcases h with rfl | h
  · exact hk
  · exact h.selects k hk

section Select

variable {s : State} {k : Bytes} {c : Candidate}

theorem State.selects_iff_of_ne {t : State} (h : t.candidates.find? k = s.candidates.find? k) :
    t.selects k ↔ s.selects k := by
  simp only [State.selects, h]

theorem State.not_selects_drop (s : State) (k : Bytes) (r : DropReason) :
    ¬(s.drop k r).selects k := by
  rintro ⟨c, hc, hsel⟩
  rw [Candidates.not_selected_of_dropped _ _ hc] at hsel
  cases hsel

theorem State.selects_select (h : s.candidates.find? c.key = some c) :
    (s.select c).selects c.key := by
  refine ⟨{ c with fate := .selected }, ?_, by simp [Candidate.isSelected]⟩
  rw [State.select, Candidates.find?_setFate_self, h]
  rfl

end Select

section Lockstep

variable {su : Setup} {B : Int} {b : Option Int} {s t : State} {c d : Candidate}

theorem exceeds_of_withBudget (hsmall : su.budget = some B) (hle : ∀ n, b = some n → B ≤ n)
    (h : exceeds (su.withBudget b) s c = true) : exceeds su s c = true := by
  simp only [exceeds, Setup.withBudget, Bool.and_eq_true, Option.any_eq_true,
    decide_eq_true_eq] at h ⊢
  obtain ⟨hi, n, hn, hx⟩ := h
  exact ⟨hi, B, hsmall, Int.lt_of_le_of_lt (hle n hn) hx⟩

theorem acceptOne_of_calm (hr : rolls su c.entry = false) :
    acceptOne su s c =
      if s.overflowed && !c.entry.ignoreBudget then (s.drop c.key .budgetExhausted, false)
      else if exceeds su s c then
        ({ s.drop c.key .budgetExhausted with overflowed := true }, false)
      else (s.select c, true) := by
  simp [acceptOne, roll, hr]

theorem acceptOne_of_overflowed (hr : rolls su c.entry = false) (ho : s.overflowed = true) :
    (acceptOne su s c).1 =
      if c.entry.ignoreBudget then s.select c else s.drop c.key .budgetExhausted := by
  rw [acceptOne_of_calm hr, ho]
  cases hi : c.entry.ignoreBudget <;> simp [exceeds, hi]

theorem acceptOne_of_ignoring (hr : rolls su c.entry = false) (hi : c.entry.ignoreBudget = true) :
    (acceptOne su s c).1 = s.select c := by
  simp [acceptOne_of_calm hr, exceeds, hi]

theorem Dominated.acceptOne {k : Bytes} (h : Dominated s t) (hr : rolls su c.entry = false)
    (hc : s.candidates.find? k = some c) (hd : t.candidates.find? k = some d) :
    Dominated (acceptOne su s c).1 (acceptOne (su.withBudget b) t d).1 := by
  obtain ⟨d', hd', hbare⟩ := Candidates.exists_find?_of_bare h.bare hc
  rw [hd] at hd'
  cases hd'
  have hentry : d.bare.entry = c.bare.entry := by rw [hbare]
  simp only [Candidate.bare] at hentry
  have hck := Candidates.key_of_find? hc
  have hdk := Candidates.key_of_find? hd
  refine ⟨?_, overflowed_acceptOne h.overflowed, ?_⟩
  · rw [acceptOne_bare, acceptOne_bare]
    exact h.bare
  · intro x hx
    by_cases hxk : x = k
    · -- Here the smaller budget can only select what ignores it.
      subst hxk
      rw [acceptOne_of_overflowed hr h.overflowed] at hx
      split at hx
      · next hi =>
        have hrd : rolls (su.withBudget b) d.entry = false := by
          rw [hentry]
          exact hr
        rw [acceptOne_of_ignoring hrd (by rwa [hentry])]
        have hsel := State.selects_select (s := t) (c := d) (by rw [hdk, hd])
        rwa [hdk] at hsel
      · rw [hck] at hx
        exact absurd hx (s.not_selects_drop x _)
    · rw [State.selects_iff_of_ne (find?_acceptOne_of_ne (by rwa [hck]))] at hx
      rw [State.selects_iff_of_ne (find?_acceptOne_of_ne (by rwa [hdk]))]
      exact h.selects x hx

theorem Ahead.acceptOne {k : Bytes} (hsmall : su.budget = some B) (hle : ∀ n, b = some n → B ≤ n)
    (h : Ahead s t) (hr : rolls su c.entry = false)
    (hc : s.candidates.find? k = some c) (hd : t.candidates.find? k = some d) :
    Ahead (acceptOne su s c).1 (acceptOne (su.withBudget b) t d).1 := by
  rcases h with rfl | h
  · rw [hc] at hd
    cases hd
    have hr' : rolls (su.withBudget b) c.entry = false := hr
    rw [acceptOne_of_calm hr, acceptOne_of_calm hr']
    split
    · exact .inl rfl
    by_cases hbig : exceeds (su.withBudget b) t c = true
    · rw [if_pos hbig, if_pos (exceeds_of_withBudget hsmall hle hbig)]
      exact .inl rfl
    rw [if_neg hbig]
    split
    · -- The smaller budget overflows here, the larger one does not.
      have hck := Candidates.key_of_find? hc
      refine .inr ⟨?_, rfl, ?_⟩
      · simp [State.drop, State.select]
      · intro x hx
        by_cases hxk : x = c.key
        · subst hxk
          exact absurd hx (t.not_selects_drop c.key _)
        · rw [State.selects_iff_of_ne (s := t)
            (Candidates.find?_setFate_of_ne _ _ _ hxk)] at hx
          rw [State.selects_iff_of_ne (s := t) (Candidates.find?_setFate_of_ne _ _ _ hxk)]
          exact hx
    · exact .inl rfl
  · exact .inr (h.acceptOne hr hc hd)

theorem Ahead.accept (hsmall : su.budget = some B) (hle : ∀ n, b = some n → B ≤ n)
    (hr : Calm su s) (h : Ahead s t) (ks : List Bytes) :
    Ahead (accept su s ks).1 (accept (su.withBudget b) t ks).1 := by
  induction ks generalizing s t with
  | nil => exact h
  | cons k ks ih =>
    rw [accept_cons, accept_cons]
    cases hc : s.candidates.find? k with
    | none =>
      have hd : t.candidates.find? k = none := by
        rw [Candidates.find?_eq_none_iff, Candidates.keys_eq_of_bare h.bare,
          ← Candidates.find?_eq_none_iff, hc]
      rw [hd]
      exact ih hr h
    | some c =>
      obtain ⟨d, hd, _⟩ := Candidates.exists_find?_of_bare h.bare hc
      rw [hd]
      apply ih
      · exact hr.of_bare (acceptOne_bare su s c)
      · exact h.acceptOne hsmall hle (hr c (Candidates.mem_of_find? hc)) hc hd

end Lockstep

section Run

variable {su : Setup} {B : Int} {b : Option Int} {s : State}

theorem Coherent.withBudget (h : Coherent su s) (b : Option Int) :
    Coherent (su.withBudget b) s := h.of_setup rfl rfl rfl

theorem Ahead.settled (hsmall : su.budget = some B) (hle : ∀ n, b = some n → B ≤ n)
    (hn : NeverRolls su) (hs : Coherent su s) :
    Ahead (settled su s) (settled (su.withBudget b) s) := by
  apply Ahead.accept hsmall hle
  · exact hn.calm hs.resolved
  · exact .inl rfl

/-- What a pass selects is selected when the scan ends. -/
theorem selects_run {k : Bytes} (hs : Coherent su s) (fuel : Nat)
    (hk : (Scan.settled su s).selects k) : (run su (fuel + 1) s).selects k := by
  obtain ⟨c, hc, hsel⟩ := hk
  have hkeys := hs.settled.selected c (Candidates.mem_of_find? hc) hsel
  rw [Candidates.key_of_find? hc] at hkeys
  refine ⟨c, ?_, hsel⟩
  simp only [run]
  cases hst : step su s with
  | stop t =>
    rw [(decisions_of_stop hst).candidates]
    exact hc
  | again t =>
    have hd := decisions_of_again hst
    rw [← hd.selectedKeys] at hkeys
    rw [← hd.candidates] at hc
    rw [← hc]
    exact find?_run_of_selected fuel hkeys

/-- As long as the smaller budget does not overflow the larger one makes no difference. -/
theorem acceptOne_withBudget {c : Candidate} (hsmall : su.budget = some B)
    (hle : ∀ n, b = some n → B ≤ n) (ho : (acceptOne su s c).1.overflowed = false) :
    acceptOne (su.withBudget b) s c = acceptOne su s c := by
  have hroll : roll (su.withBudget b) = roll su := rfl
  unfold acceptOne at ho ⊢
  rw [hroll]
  dsimp only at ho ⊢
  split
  · rfl
  next hlate =>
  rw [if_neg hlate] at ho
  split
  · rfl
  next hpass =>
  rw [if_neg hpass] at ho
  by_cases hx : exceeds su { s with random := (roll su c.entry s.random).2 } c = true
  · rw [if_pos hx] at ho
    cases ho
  · rw [if_neg hx, if_neg fun h => hx (exceeds_of_withBudget hsmall hle h)]

theorem accept_withBudget (hsmall : su.budget = some B) (hle : ∀ n, b = some n → B ≤ n)
    {ks : List Bytes} (ho : (accept su s ks).1.overflowed = false) :
    accept (su.withBudget b) s ks = accept su s ks := by
  induction ks generalizing s with
  | nil => rfl
  | cons k ks ih =>
    rw [accept_cons] at ho
    cases hc : s.candidates.find? k with
    | none =>
      rw [hc] at ho
      simp only [accept, hc]
      exact ih ho
    | some c =>
      rw [hc] at ho
      dsimp only at ho
      have hone := not_overflowed_of_accept ho
      simp only [accept, hc, acceptOne_withBudget hsmall hle hone, ih ho]

theorem step_withBudget (hsmall : su.budget = some B) (hle : ∀ n, b = some n → B ≤ n)
    (ho : (Scan.settled su s).overflowed = false) :
    step (su.withBudget b) s = step su s := by
  have haccept : accept (su.withBudget b) (resolved su s) (kept su s)
      = accept su (resolved su s) (kept su s) := accept_withBudget hsmall hle ho
  have hsettled : Scan.settled (su.withBudget b) s = Scan.settled su s :=
    congrArg Prod.fst haccept
  have hkeys : activatedKeys (su.withBudget b) s = activatedKeys su s := rfl
  have henlisted : enlisted (su.withBudget b) s = enlisted su s := rfl
  have hresolved : resolved (su.withBudget b) s = resolved su s := rfl
  have hkept : kept (su.withBudget b) s = kept su s := rfl
  have hescalate : escalate (su.withBudget b) = escalate su := rfl
  rw [step_eq, step_eq, hkeys, henlisted, hresolved, hkept, hescalate, haccept, hsettled]
  simp only [ho, Bool.false_eq_true, if_false]

theorem selects_of_withBudget (hsmall : su.budget = some B) (hle : ∀ n, b = some n → B ≤ n)
    (hn : NeverRolls su) (hs : Coherent su s) (fuel : Nat) {k : Bytes}
    (hk : (run su fuel s).selects k) : (run (su.withBudget b) fuel s).selects k := by
  induction fuel generalizing s with
  | zero => exact hk
  | succ fuel ih =>
    cases ho : (Scan.settled su s).overflowed with
    | true =>
      obtain ⟨t, ht⟩ := step_of_overflowed ho
      simp only [run, ht] at hk
      have hsel : (Scan.settled su s).selects k := by
        rwa [State.selects, ← (decisions_of_stop ht).candidates]
      have hahead : Ahead (Scan.settled su s) (Scan.settled (su.withBudget b) s) :=
        Ahead.settled hsmall hle hn hs
      have hbig : (Scan.settled (su.withBudget b) s).selects k := hahead.selects hsel
      have hcoh : Coherent (su.withBudget b) s := hs.withBudget b
      exact selects_run hcoh fuel hbig
    | false =>
      simp only [run, step_withBudget hsmall hle ho] at hk ⊢
      cases hst : step su s with
      | stop t =>
        rw [hst] at hk
        exact hk
      | again t =>
        rw [hst] at hk
        exact ih (hs.again hst) hk

end Run

section Evaluate

variable {sc : Scanner} {books : List Book} {o : Options} {vars : Variables} {random : Random}

theorem budget_withBudget (o : Options) (books : List Book) {B : Int} (h : 0 < B) :
    (o.withBudget (some B)).budget books = some B := by
  simp [Options.budget, Options.withBudget, h]

theorem opening?_withBudget (t : Option Int) :
    opening? sc books (o.withBudget t) vars random =
      (opening? sc books o vars random).map fun (su, s) =>
        (su.withBudget ((o.withBudget t).budget books), s) := by
  have hstarted : started? books (o.withBudget t) vars = started? books o vars := rfl
  rw [opening?_eq_map, opening?_eq_map, hstarted, Option.map_map]
  rfl

theorem mem_selectedEntries {su : Setup} {s : State} (hs : Coherent su s) {n : Int} {e : Entry} :
    e ∈ (outcome books o n s.candidates).selectedEntries ↔
      ∃ c, s.candidates.find? e.key = some c ∧ c.isSelected = true ∧ c.entry = e := by
  simp only [Outcome.selectedEntries, Outcome.selected, outcome, List.mem_map, List.mem_filter]
  constructor
  · rintro ⟨c, ⟨hc, hsel⟩, rfl⟩
    refine ⟨c, ?_, hsel, rfl⟩
    rw [(hs.sound c hc).entry_key]
    exact Candidates.find?_of_mem hs.nodup hc
  · rintro ⟨c, hc, hsel, rfl⟩
    exact ⟨c, ⟨Candidates.mem_of_find? hc, hsel⟩, rfl⟩

theorem exists_selectedEntry_iff {su : Setup} {s : State} (hs : Coherent su s) {n : Int}
    {k : Bytes} :
    (∃ e ∈ (outcome books o n s.candidates).selectedEntries, e.key = k) ↔ s.selects k := by
  constructor
  · rintro ⟨e, he, rfl⟩
    obtain ⟨c, hc, hsel, _⟩ := (mem_selectedEntries hs).mp he
    exact ⟨c, hc, hsel⟩
  · rintro ⟨c, hc, hsel⟩
    have hkey := hs.entry_key hc
    exact ⟨c.entry, (mem_selectedEntries hs).mpr ⟨c, hkey.symm ▸ hc, hsel, rfl⟩, hkey⟩

/-- What is selected under a budget is selected under every larger one, and without a budget, if no
entry rolls. -/
theorem selectedEntries_mono {B : Int} {t : Option Int} {out : Outcome} (hB : 0 < B)
    (hle : ∀ n, (o.withBudget t).budget books = some n → B ≤ n)
    (hrolls : ∀ su s, opening? sc books o vars random = some (su, s) → NeverRolls su)
    (h : (evaluate sc books (o.withBudget (some B)) vars random).outcome = .ok out) :
    ∃ out', (evaluate sc books (o.withBudget t) vars random).outcome = .ok out' ∧
      ∀ e ∈ out.selectedEntries, ∃ e' ∈ out'.selectedEntries, e'.key = e.key := by
  obtain ⟨_, rfl⟩ | ⟨_, _, hsmall, rfl⟩ := evaluate_cases h
  · -- Nothing is triggered, whatever the budget is.
    have hok : Succeeds books (o.withBudget (some B)) vars := evaluate_ok_iff.mp ⟨_, h⟩
    have hbig : ∃ out', (evaluate sc books (o.withBudget t) vars random).outcome = .ok out' :=
      evaluate_ok_iff.mpr hok
    obtain ⟨out', hout'⟩ := hbig
    exact ⟨out', hout', by simp [outcome, Outcome.selectedEntries, Outcome.selected]⟩
  rw [opening?_withBudget, budget_withBudget o books hB] at hsmall
  obtain ⟨⟨su, s⟩, hopen, heq⟩ := Option.map_eq_some_iff.mp hsmall
  obtain ⟨rfl, rfl⟩ := Prod.mk.inj heq
  generalize hb : (o.withBudget t).budget books = b at hle
  have hbig : opening? sc books (o.withBudget t) vars random = some (su.withBudget b, s) := by
    rw [opening?_withBudget, hopen, hb]
    rfl
  have hn : NeverRolls (su.withBudget (some B)) := hrolls su s hopen
  have hs : Coherent su s := coherent_of_opening hopen
  refine ⟨_, evaluate_of_opening hbig, ?_⟩
  intro e he
  obtain ⟨c, hc, hsel, _⟩ := (mem_selectedEntries (hs.withBudget (some B)).ending).mp he
  obtain ⟨d, hd, hdsel⟩ :=
    selects_of_withBudget rfl hle hn (hs.withBudget (some B)) _ ⟨c, hc, hsel⟩
  have hend : Coherent (su.withBudget b) (ending (su.withBudget b) s) := (hs.withBudget b).ending
  have hkey : d.entry.key = e.key := by
    rw [(hend.sound d (Candidates.mem_of_find? hd)).entry_key, Candidates.key_of_find? hd]
  refine ⟨d.entry, (mem_selectedEntries hend).mpr ⟨d, ?_, hdsel, rfl⟩, hkey⟩
  rw [hkey]
  exact hd

theorem selectedEntries_mono_constantTrio : ∃ out out',
    (evaluate .standard [.constantTrio] (Options.withBudget {} (some 1)) [] (.ofList [])).outcome
      = .ok out ∧
    (evaluate .standard [.constantTrio] (Options.withBudget {} (some 2)) [] (.ofList [])).outcome
      = .ok out' ∧
    out.selectedEntries.length = 1 ∧
    ∀ e ∈ out.selectedEntries, ∃ e' ∈ out'.selectedEntries, e'.key = e.key := by
  have hle : ∀ n, (Options.withBudget {} (some 2)).budget [.constantTrio] = some n → 1 ≤ n := by
    intro n hn
    rw [budget_withBudget _ _ (by decide)] at hn
    cases hn
    decide
  have hrolls : ∀ su s,
      opening? .standard [.constantTrio] {} [] (.ofList []) = some (su, s) → NeverRolls su := by
    intro su s h
    obtain ⟨_, _, rfl, _⟩ := opening?_eq_some h
    intro e he
    have hcases : e ∈ Book.constantTrio.entries := he
    refine ⟨?_, fun _ => nofun⟩
    simp only [Book.constantTrio, List.mem_cons, List.not_mem_nil, or_false] at hcases
    rcases hcases with rfl | rfl | rfl <;> rfl
  obtain ⟨out', hout', hall⟩ := selectedEntries_mono (by decide) hle hrolls rfl
  exact ⟨_, out', rfl, hout', rfl, hall⟩

end Evaluate
end Lorebook.Scan
