import Lorebook.Scan

set_option autoImplicit false

/-!
The parts of one pass by name, and how properties of states carry over from passes to runs. What a
pass decides is settled when acceptance ends; escalation and the log leave it alone.
-/

namespace Lorebook.Scan

def Step.state : Step → State
  | .stop s => s
  | .again s => s

def activatedKeys (su : Setup) (s : State) : List Bytes := (activated su s).map (·.1.key)

/-- The state of a pass whose activated entries are among the candidates. -/
def enlisted (su : Setup) (s : State) : State :=
  let (t, keys) := activate su { s with passes := s.passes + 1 }
  t.note su (lit "pass " ++ Bytes.ofNat t.passes ++ lit " (" ++ (passKind su s).name ++ lit "): "
    ++ Bytes.ofNat keys.length ++ lit " activated")

def lineup (su : Setup) (s : State) : List Bytes := ordered su (enlisted su s) (activatedKeys su s)

def resolved (su : Setup) (s : State) : State :=
  (resolveGroups su (enlisted su s) (lineup su s)).1

/-- The keys that the groups leave in the lineup. -/
def kept (su : Setup) (s : State) : List Bytes :=
  (resolveGroups su (enlisted su s) (lineup su s)).2

/-- The state once the kept candidates have been decided about. -/
def settled (su : Setup) (s : State) : State := (accept su (resolved su s) (kept su s)).1

theorem step_eq (su : Setup) (s : State) :
    step su s =
      if (activatedKeys su s).isEmpty then .stop (enlisted su s)
      else if (settled su s).overflowed then
        .stop ((settled su s).note su (lit "token budget " ++ Bytes.ofInt (su.budget.getD 0)
          ++ lit " overflowed at " ++ Bytes.ofInt (settled su s).used ++ lit " used"))
      else escalate su (settled su s) (accept su (resolved su s) (kept su s)).2 := rfl

/-- Two states that agree in what is on record besides the candidates. -/
structure SameLedger (s t : State) : Prop where
  selectedKeys : t.selectedKeys = s.selectedKeys
  selectedGroups : t.selectedGroups = s.selectedGroups
  failedKeys : t.failedKeys = s.failedKeys
  used : t.used = s.used
  overflowed : t.overflowed = s.overflowed

theorem SameLedger.trans {s t u : State} (h : SameLedger s t) (h' : SameLedger t u) :
    SameLedger s u where
  selectedKeys := h'.selectedKeys.trans h.selectedKeys
  selectedGroups := h'.selectedGroups.trans h.selectedGroups
  failedKeys := h'.failedKeys.trans h.failedKeys
  used := h'.used.trans h.used
  overflowed := h'.overflowed.trans h.overflowed

/-- Two states that agree in all that acceptance decides. -/
structure SameDecisions (s t : State) : Prop extends SameLedger s t where
  candidates : t.candidates = s.candidates

namespace SameDecisions

variable {s t u : State}

theorem refl (s : State) : SameDecisions s s := ⟨⟨rfl, rfl, rfl, rfl, rfl⟩, rfl⟩

theorem trans (h : SameDecisions s t) (h' : SameDecisions t u) : SameDecisions s u where
  toSameLedger := h.toSameLedger.trans h'.toSameLedger
  candidates := h'.candidates.trans h.candidates

theorem note (su : Setup) (s : State) (line : Bytes) : SameDecisions s (s.note su line) := by
  unfold State.note
  split <;> exact ⟨⟨rfl, rfl, rfl, rfl, rfl⟩, rfl⟩

theorem note_if (h : SameDecisions s t) (su : Setup) (p : Prop) [Decidable p] (line : Bytes) :
    SameDecisions s (if p then t.note su line else t) := by
  split
  · exact h.trans (note su t line)
  · exact h

theorem feed (su : Setup) (s : State) (fresh : Bytes) : SameDecisions s (feed su s fresh) := by
  have hs : SameDecisions s { s with
      buffer := grown su.scanner.maxBufferBytes s.buffer fresh
      recursionSteps := s.recursionSteps + 1 } := ⟨⟨rfl, rfl, rfl, rfl, rfl⟩, rfl⟩
  have hn := hs.note_if su
    (su.scanner.maxBufferBytes
      < (if s.buffer.isEmpty then fresh else s.buffer ++ lit "\n" ++ fresh).length)
    (lit "scan buffer truncated to "
      ++ Bytes.ofNat (grown su.scanner.maxBufferBytes s.buffer fresh).length ++ lit " bytes")
  exact ⟨⟨hn.selectedKeys, hn.selectedGroups, hn.failedKeys, hn.used, hn.overflowed⟩,
    hn.candidates⟩

theorem widen (su : Setup) (s : State) : SameDecisions s (widen su s).state := by
  unfold Scan.widen
  split
  · have hw : SameDecisions s { s with widened := s.widened + 1 } :=
      ⟨⟨rfl, rfl, rfl, rfl, rfl⟩, rfl⟩
    exact hw.trans (note su _ _)
  · exact refl s

theorem escalate (su : Setup) (s : State) (accepted : List Bytes) :
    SameDecisions s (escalate su s accepted).state := by
  unfold Scan.escalate
  dsimp only
  split
  · split
    · exact note su s _
    · exact feed su s _
  · split
    · exact ⟨⟨rfl, rfl, rfl, rfl, rfl⟩, rfl⟩
    · exact widen su s

end SameDecisions

/-- A pass that activates nothing settles nothing. -/
theorem settled_of_idle {su : Setup} {s : State} (h : activatedKeys su s = []) :
    settled su s = enlisted su s := by
  have hl : lineup su s = [] := by simp [lineup, ordered, h, sortBy]
  simp [settled, kept, resolved, hl, resolveGroups, groupsOf, Draw.alive, accept]

/-- Acceptance has the last word in a pass. -/
theorem step_decisions (su : Setup) (s : State) :
    SameDecisions (settled su s) (step su s).state := by
  rw [step_eq]
  split
  · next h => rw [settled_of_idle (List.isEmpty_iff.mp h)]; exact .refl _
  · split
    · exact .note su _ _
    · exact .escalate su _ _

theorem decisions_of_stop {su : Setup} {s t : State} (h : step su s = .stop t) :
    SameDecisions (settled su s) t := by
  have hd := step_decisions su s
  rwa [h] at hd

theorem decisions_of_again {su : Setup} {s t : State} (h : step su s = .again t) :
    SameDecisions (settled su s) t := by
  have hd := step_decisions su s
  rwa [h] at hd

theorem not_overflowed_of_again {su : Setup} {s t : State} (h : step su s = .again t) :
    (settled su s).overflowed = false := by
  rw [step_eq] at h
  split at h
  · cases h
  · split at h
    · cases h
    · next ho => simpa using ho

theorem step_of_overflowed {su : Setup} {s : State} (h : (settled su s).overflowed = true) :
    ∃ t, step su s = .stop t := by
  rw [step_eq, if_pos h]
  split <;> exact ⟨_, rfl⟩

/-- The states in which the passes of a run begin. -/
def trace (su : Setup) : Nat → State → List State
  | 0, _ => []
  | fuel + 1, s =>
    s :: match step su s with
      | .stop _ => []
      | .again t => trace su fuel t

section Run

variable {su : Setup} {P : State → Prop}

/-- What holds whenever a pass begins, and what any pass makes of it at the end of a run. -/
theorem run_ends {Q : State → Prop} (hstep : ∀ s t, P s → step su s = .again t → P t)
    (hlast : ∀ s, P s → Q (step su s).state) (hnone : ∀ s, P s → Q s) (fuel : Nat) (s : State)
    (h : P s) : Q (run su fuel s) := by
  induction fuel generalizing s with
  | zero => exact hnone s h
  | succ fuel ih =>
    have hs := hlast s h
    cases hst : step su s with
    | stop t =>
      rw [hst] at hs
      simp only [run, hst]
      exact hs
    | again t =>
      simp only [run, hst]
      exact ih t (hstep s t h hst)

/-- What every pass keeps holds at the end of a run. -/
theorem run_keeps (hstep : ∀ s, P s → P (step su s).state) (fuel : Nat) (s : State) (h : P s) :
    P (run su fuel s) := by
  refine run_ends (P := P) (fun s t hs hst => ?_) hstep (fun _ hs => hs) fuel s h
  have ht := hstep s hs
  rw [hst] at ht
  exact ht

/-- What every pass that is followed by another keeps holds whenever a pass begins. -/
theorem trace_keeps (hstep : ∀ s t, P s → step su s = .again t → P t) (fuel : Nat) (s : State)
    (h : P s) : ∀ t ∈ trace su fuel s, P t := by
  induction fuel generalizing s with
  | zero => simp [trace]
  | succ fuel ih =>
    intro t ht
    rcases List.mem_cons.mp ht with rfl | ht
    · exact h
    · cases hst : step su s with
      | stop u => simp [hst] at ht
      | again u =>
        rw [hst] at ht
        exact ih u (hstep s u h hst) t ht

/-- A pass that stops is the last one of its run. -/
theorem run_of_stop {fuel : Nat} {s t u : State} (ht : t ∈ trace su fuel s)
    (hstop : step su t = .stop u) : run su fuel s = u := by
  induction fuel generalizing s with
  | zero => simp [trace] at ht
  | succ fuel ih =>
    rcases List.mem_cons.mp ht with rfl | ht
    · simp [run, hstop]
    · cases hst : step su s with
      | stop v => simp [hst] at ht
      | again v =>
        rw [hst] at ht
        simpa [run, hst] using ih ht

end Run

section History

variable {su : Setup} {P Q : List State → State → Prop}

/-- What is kept by each pass that another follows, with regard to the passes before it, holds
whenever a pass begins. -/
theorem trace_history
    (hstep : ∀ passes s t, P passes s → step su s = .again t → P (passes ++ [s]) t)
    {fuel : Nat} {passes : List State} {s : State} (h : P passes s) {before after : List State}
    {t : State} (ht : trace su fuel s = before ++ t :: after) : P (passes ++ before) t := by
  induction fuel generalizing passes s before with
  | zero => simp [trace] at ht
  | succ fuel ih =>
    cases before with
    | nil =>
      obtain ⟨rfl, _⟩ := List.cons.inj ht
      simpa using h
    | cons r before =>
      obtain ⟨rfl, htail⟩ := List.cons.inj ht
      cases hst : step su s with
      | stop u => simp [hst] at htail
      | again u =>
        rw [hst] at htail
        simpa using ih (hstep passes s u h hst) htail

theorem run_history (hstep : ∀ passes s t, P passes s → step su s = .again t → P (passes ++ [s]) t)
    (hlast : ∀ passes s, P passes s → Q (passes ++ [s]) (step su s).state)
    (hnone : ∀ passes s, P passes s → Q passes s) (fuel : Nat) {passes : List State} {s : State}
    (h : P passes s) : Q (passes ++ trace su fuel s) (run su fuel s) := by
  induction fuel generalizing passes s with
  | zero => simpa [trace, run] using hnone passes s h
  | succ fuel ih =>
    have hs := hlast passes s h
    cases hst : step su s with
    | stop u =>
      rw [hst] at hs
      simp only [trace, run, hst]
      exact hs
    | again u =>
      have ht := ih (hstep passes s u h hst)
      rw [List.append_assoc] at ht
      simp only [trace, run, hst]
      exact ht

end History
end Lorebook.Scan
