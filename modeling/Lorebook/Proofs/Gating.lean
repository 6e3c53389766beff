import Lorebook.Proofs.Coherence
import Lorebook.Proofs.Parallel

set_option autoImplicit false

/-!
The gates that an entry passes to be activated, and what may call it once they are open. An entry
becomes a candidate in just those passes in which both hold and its key has not been decided about.
-/

namespace Lorebook

def Book.dragonfire : Book where
  entries := [{ uid := lit "1", keys := [lit "dragon"], secondaryKeys := [lit "fire"],
                excludeKeys := [lit "baby"], selective := true, selectiveLogic := .andAll,
                content := lit "Dragons breathe fire." }]

/-- What a logic asks of the secondary keys, of which `p` tells those that match. -/
def SelectiveLogic.Holds (logic : SelectiveLogic) (p : Bytes → Bool) (keys : List Bytes) : Prop :=
  match logic with
  | .andAny => ∃ k ∈ keys, p k = true
  | .andAll => ∀ k ∈ keys, p k = true
  | .notAny => ∀ k ∈ keys, p k = false
  | .notAll => ∃ k ∈ keys, p k = false

theorem SelectiveLogic.passes_filter (logic : SelectiveLogic) (p : Bytes → Bool)
    (keys : List Bytes) :
    logic.passes (keys.filter p).length keys.length = true ↔ logic.Holds p keys := by
  cases logic with
  | andAny => simp [passes, Holds]
  | andAll => simp [passes, Holds]
  | notAny => simp [passes, Holds]
  | notAll => simp [passes, Holds]

theorem Scanner.matching_eq_nil (o : KeyOptions) (keys : List Bytes) (text : Bytes) :
    matching o keys text = [] ↔ ∀ k ∈ keys, KeyMatch.keyMatches o k text = false := by
  simp [matching, List.filter_eq_nil_iff]

namespace Scan

/-- The gates of a pass are open to an entry. -/
structure Admits (su : Setup) (s : State) (e : Entry) : Prop where
  enabled : e.enabled = true
  delay : su.effects.delayActive e = false
  cooldown : su.effects.cooldownActive e.key = true → su.stickyActive e.key = true
  deferred : e.delaysUntilRecursion = true → su.stickyActive e.key = false →
    passKind su s = .recursive ∧ e.recursionLevel ≤ s.level
  excluded : e.excludeRecursion = true → su.stickyActive e.key = false →
    passKind su s ≠ .recursive

structure Answers (su : Setup) (e : Entry) (text : Bytes) : Prop where
  willing : e.dontActivate = false
  after : ∀ n, e.activateOnlyAfter = some n → n ≤ su.clock
  every : ∀ n, e.activateOnlyEvery = some n → 0 < n → su.clock % n = 0
  spared : ∀ k ∈ e.excludeKeys, KeyMatch.keyMatches (su.scanner.excludeOptions e) k text = false
  primary : ∃ k ∈ e.keys, KeyMatch.keyMatches (su.scanner.keyOptions e) k text = true
  secondary : e.selective = true → e.secondaryKeys ≠ [] → e.selectiveLogic.Holds
    (KeyMatch.keyMatches (su.scanner.keyOptions e) · text) e.secondaryKeys

inductive Called (su : Setup) (s : State) (e : Entry) : Prop
  | forced {o : Json} : su.forced.find? e = some o → Called su s e
  | constant : e.constant = true → Called su s e
  | sticky : su.stickyActive e.key = true → Called su s e
  | keys : Answers su e (textFor su s e) → Called su s e

def Activates (su : Setup) (s : State) (e : Entry) : Prop := ∃ tr, (e, tr) ∈ activated su s

section Gates

variable {su : Setup} {s : State} {e : Entry} {text : Bytes}

theorem eligible_iff : eligible su s e = true ↔
    e.key ∉ s.selectedKeys ∧ e.key ∉ s.failedKeys ∧ Admits su s e := by
  constructor
  · intro h
    obtain ⟨hselected, hfailed⟩ := not_mem_of_eligible h
    simp only [eligible, levelOpen, Bool.and_eq_true, Bool.or_eq_true, Bool.not_eq_true',
      Bool.and_eq_false_iff, decide_eq_true_eq, decide_eq_false_iff_not] at h
    obtain ⟨⟨⟨henabled, _⟩, hdelay⟩, hgates⟩ := h
    refine ⟨hselected, hfailed, henabled, hdelay, fun hc => ?_, fun hd hs => ?_, fun hx hs => ?_⟩
    all_goals grind
  · rintro ⟨hselected, hfailed, h⟩
    obtain ⟨henabled, hdelay, hcooldown, hdeferred, hexcluded⟩ := h
    simp only [eligible, levelOpen, Bool.and_eq_true, Bool.or_eq_true, Bool.not_eq_true',
      Bool.and_eq_false_iff, decide_eq_true_eq, decide_eq_false_iff_not]
    grind

theorem clockAllows_iff {clock : Int} : clockAllows clock e = true ↔
    (∀ n, e.activateOnlyAfter = some n → n ≤ clock) ∧
      ∀ n, e.activateOnlyEvery = some n → 0 < n → clock % n = 0 := by
  unfold clockAllows
  cases e.activateOnlyAfter <;> cases e.activateOnlyEvery <;> simp <;> grind

theorem keywordMatch?_isSome (hc : e.constant = false) :
    (keywordMatch? su e text).isSome = true ↔ Answers su e text := by
  have hspared := Scanner.matching_eq_nil (su.scanner.excludeOptions e) e.excludeKeys text
  have hprimary := Scanner.matching_eq_nil (su.scanner.keyOptions e) e.keys text
  have hsecondary : e.selectiveLogic.passes
      (Scanner.matching (su.scanner.keyOptions e) e.secondaryKeys text).length
        e.secondaryKeys.length = true ↔ _ :=
    e.selectiveLogic.passes_filter _ e.secondaryKeys
  constructor
  · intro h
    -- One branch for each test, in the order in which they are made.
    unfold keywordMatch? at h
    dsimp only at h
    generalize hfound : (if e.selective = true then
      Scanner.matching (su.scanner.keyOptions e) e.secondaryKeys text else []) = found at h
    split at h
    · cases h
    next hwilling =>
    split at h
    · cases h
    next hclock =>
    split at h
    · cases h
    next hspare =>
    split at h
    · cases h
    next hmatch =>
    split at h
    · cases h
    next hlogic =>
    obtain ⟨hafter, hevery⟩ := clockAllows_iff.mp (by simpa using hclock)
    refine ⟨?_, hafter, hevery, ?_, ?_, fun hsel hkeys => hsecondary.mp ?_⟩
    · simpa [hc] using hwilling
    · simpa [hspared] using hspare
    · simpa [hprimary] using hmatch
    · rw [if_pos hsel] at hfound
      simpa [hsel, hkeys, ← hfound] using hlogic
  · intro h
    have hclock := clockAllows_iff.mpr ⟨h.after, h.every⟩
    have hmatch := h.primary
    unfold keywordMatch?
    dsimp only
    rw [if_neg (by simp [h.willing]), if_neg (by simp [hclock]),
      if_neg (by simpa [hspared] using h.spared), if_neg (by simpa [hprimary] using hmatch),
      if_neg]
    · rfl
    · have hlogic (hsel : e.selective = true) (hkeys : e.secondaryKeys ≠ []) :=
        hsecondary.mpr (h.secondary hsel hkeys)
      grind

theorem trigger?_isSome : (trigger? su s e).isSome = true ↔ Called su s e := by
  unfold trigger?
  split
  · next o ho => exact ⟨fun _ => .forced ho, fun _ => rfl⟩
  next ho =>
  split
  · next hc => exact ⟨fun _ => .constant hc, fun _ => rfl⟩
  next hc =>
  split
  · next hs => exact ⟨fun _ => .sticky hs, fun _ => rfl⟩
  next hs =>
  rw [Option.isSome_map, keywordMatch?_isSome (by simpa using hc)]
  constructor
  · exact .keys
  · intro h
    cases h with
    | forced h => simp [ho] at h
    | constant h => exact absurd h hc
    | sticky h => exact absurd h hs
    | keys h => exact h

theorem activates_iff : Activates su s e ↔
    e ∈ su.entries ∧ e.key ∉ s.selectedKeys ∧ e.key ∉ s.failedKeys ∧ Admits su s e ∧
      Called su s e := by
  unfold Activates
  simp only [mem_activated, ← trigger?_isSome, Option.isSome_iff_exists, eligible_iff]
  grind

end Gates

section Enlisted

variable {su : Setup} {s : State} {k : Bytes}

theorem mem_activatedKeys_iff : k ∈ activatedKeys su s ↔ ∃ e, Activates su s e ∧ e.key = k := by
  simp only [activatedKeys, List.mem_map, Activates]
  constructor
  · rintro ⟨⟨e, tr⟩, hm, rfl⟩
    exact ⟨e, ⟨tr, hm⟩, rfl⟩
  · rintro ⟨e, ⟨tr, hm⟩, rfl⟩
    exact ⟨(e, tr), hm, rfl⟩

theorem mem_keys_foldl_enlist (kind : PassKind) (es : List (Entry × Trigger)) (s : State) :
    k ∈ (es.foldl (fun t (e, tr) => t.enlist kind e tr) s).candidates.keys ↔
      k ∈ s.candidates.keys ∨ k ∈ es.map (·.1.key) := by
  induction es generalizing s with
  | nil => simp
  | cons row es ih =>
    rw [List.foldl_cons, ih, State.keys_enlist, mem_addOnce, List.map_cons, List.mem_cons, or_assoc]

theorem mem_keys_settled : k ∈ (settled su s).candidates.keys ↔
    k ∈ s.candidates.keys ∨ k ∈ activatedKeys su s := by
  have hnote : SameDecisions (activate su { s with passes := s.passes + 1 }).1 (enlisted su s) :=
    .note su _ _
  rw [Candidates.keys_eq_of_bare (settled_bare su s), hnote.candidates]
  exact mem_keys_foldl_enlist _ (activated su s) _

theorem passBound_pos (su : Setup) : 0 < passBound su := by
  unfold passBound
  split <;> omega

theorem mem_trace_self {fuel : Nat} (h : 0 < fuel) (s : State) : s ∈ trace su fuel s := by
  cases fuel with
  | zero => omega
  | succ fuel => simp [trace]

/-- A run finds what its passes activate. -/
theorem mem_keys_run (fuel : Nat) (s : State) : k ∈ (run su fuel s).candidates.keys ↔
    k ∈ s.candidates.keys ∨ ∃ t ∈ trace su fuel s, k ∈ activatedKeys su t := by
  induction fuel generalizing s with
  | zero => simp [run, trace]
  | succ fuel ih =>
    cases hst : step su s with
    | stop t => simp [run, trace, hst, (decisions_of_stop hst).candidates, mem_keys_settled]
    | again t =>
      simp [run, trace, hst, ih, (decisions_of_again hst).candidates, mem_keys_settled, or_assoc]

end Enlisted

section Evaluate

variable {sc : Scanner} {books : List Book} {o : Options} {vars : Variables} {random : Random}
  {out : Outcome}

/-- The candidates are the entries that some pass activates, each through open gates. What could be
activated when the scan begins, is. -/
theorem candidates_gated (h : (evaluate sc books o vars random).outcome = .ok out) :
    (∀ c ∈ out.candidates, ∃ su s, opening? sc books o vars random = some (su, s) ∧
      ∃ e ∈ triggeredEntries books o.generation, e.key = c.key ∧
        (∃ t ∈ trace su (passBound su) s, Activates su t e) ∧
        ∀ t ∈ trace su (passBound su) s, Activates su t e → Admits su t e ∧ Called su t e) ∧
    ∀ su s, opening? sc books o vars random = some (su, s) → passKind su s = .direct ∧
      ∀ e ∈ triggeredEntries books o.generation, Admits su s e → Called su s e →
        ∃ c ∈ out.candidates, c.key = e.key := by
  rcases evaluate_cases h with ⟨hnone, rfl⟩ | ⟨su, s, hopen, rfl⟩
  · exact ⟨fun c hc => absurd hc List.not_mem_nil, fun su s hopen => by simp [hnone] at hopen⟩
  obtain ⟨fx, log, hsu, hs⟩ := opening?_eq_some hopen
  have hentries : su.entries = triggeredEntries books o.generation := by rw [hsu]; rfl
  -- No candidate is ever taken away, so that those of the end are those of all passes.
  have hkeys (k : Bytes) : k ∈ (ending su s).candidates.keys ↔
      ∃ t ∈ trace su (passBound su) s, k ∈ activatedKeys su t := by
    rw [ending, mem_keys_run, hs]
    simp [State.initial, Candidates.keys]
  constructor
  · intro c hc
    obtain ⟨t, ht, hact⟩ := (hkeys c.key).mp (List.mem_map_of_mem hc)
    obtain ⟨e, he, hek⟩ := mem_activatedKeys_iff.mp hact
    refine ⟨su, s, hopen, e, hentries ▸ (activates_iff.mp he).1, hek, ⟨t, ht, he⟩, ?_⟩
    intro t _ he
    exact (activates_iff.mp he).2.2.2
  · intro su' s' hopen'
    cases hopen.symm.trans hopen'
    refine ⟨by simp [passKind, hs, State.initial], fun e he hadmits hcalled => ?_⟩
    have hact : Activates su s e := by
      refine activates_iff.mpr ⟨hentries ▸ he, ?_, ?_, hadmits, hcalled⟩ <;>
        simp [hs, State.initial]
    have hfound := (hkeys e.key).mpr
      ⟨s, mem_trace_self (passBound_pos su) s, mem_activatedKeys_iff.mpr ⟨e, hact, rfl⟩⟩
    exact List.mem_map.mp hfound

theorem candidates_gated_dragonfire : ∃ out,
    (evaluate .standard [.dragonfire] { text := some (lit "a dragon of fire") } []
      (.ofList [])).outcome = .ok out ∧
    ∃ c ∈ out.candidates, ∃ su s,
      opening? .standard [.dragonfire] { text := some (lit "a dragon of fire") } [] (.ofList [])
        = some (su, s) ∧
      ∃ e ∈ Book.dragonfire.entries, e.key = c.key ∧
        ∃ t ∈ trace su (passBound su) s, Activates su t e ∧ Admits su t e ∧ Called su t e := by
  have hcheck : (opening? .standard [.dragonfire] { text := some (lit "a dragon of fire") } []
      (.ofList [])).any (fun p => Book.dragonfire.entries.any fun e =>
        eligible p.1 p.2 e && (trigger? p.1 p.2 e).isSome) = true := by decide
  obtain ⟨⟨su, s⟩, hopen, hany⟩ := (Option.any_eq_true _ _).mp hcheck
  obtain ⟨e, he, hboth⟩ := List.any_eq_true.mp hany
  obtain ⟨heligible, htrigger⟩ := (Bool.and_eq_true _ _).mp hboth
  obtain ⟨hgated, hfirst⟩ := candidates_gated (evaluate_of_opening hopen)
  obtain ⟨c, hc, _⟩ := (hfirst su s hopen).2 e he (eligible_iff.mp heligible).2.2
    (trigger?_isSome.mp htrigger)
  obtain ⟨su', s', hopen', e', he', hk, ⟨t, ht, hact⟩, hgates⟩ := hgated c hc
  exact ⟨_, evaluate_of_opening hopen, c, hc, su', s', hopen', e', he', hk, t, ht, hact,
    hgates t ht hact⟩

end Evaluate

end Scan
end Lorebook
