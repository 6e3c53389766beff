import Lorebook.Proofs.Parallel

set_option autoImplicit false

/-!
The estimator through a scan: only activation asks it. So what asking keeps true of an estimator is
true from the first pass to the last; above all, it computes the same function.
-/

namespace Lorebook.Scan

/-- The estimator computes this function, whatever it keeps. -/
def State.Counts (s : State) (v : Bytes → Int) : Prop :=
  s.estimator.Faithful ∧ s.estimator.value = v

section Asking

variable {su : Setup} {s : State} {P : Estimator → Prop}

theorem State.note_estimator (su : Setup) (s : State) (line : Bytes) :
    (s.note su line).estimator = s.estimator := by
  unfold State.note
  split <;> rfl

theorem acceptOne_estimator (su : Setup) (s : State) (c : Candidate) :
    (acceptOne su s c).1.estimator = s.estimator := by
  apply acceptOne_elim (P := fun r => r.1.estimator = s.estimator)
  intro r hr
  cases hr with
  | late _ _ => rfl
  | failed r _ => rfl
  | overrun r _ _ => rfl
  | taken r _ _ => rfl

theorem feed_estimator (su : Setup) (s : State) (fresh : Bytes) :
    (feed su s fresh).estimator = s.estimator := by
  simp only [feed, apply_ite State.estimator, State.note_estimator, ite_self]

theorem escalate_estimator (su : Setup) (s : State) (accepted : List Bytes) :
    (escalate su s accepted).state.estimator = s.estimator := by
  unfold escalate
  dsimp only
  split
  · split
    · exact State.note_estimator su s _
    · exact feed_estimator su s _
  · split
    · rfl
    · unfold widen
      split
      · exact State.note_estimator su _ _
      · rfl

variable (hask : ∀ est text, P est → P (est.estimate text).2)
include hask

theorem estimator_enlist (h : P s.estimator) (k : PassKind) (e : Entry) (tr : Trigger) :
    P (s.enlist k e tr).estimator := by
  rcases s.enlist_estimator k e tr with heq | ⟨text, heq⟩
  · rwa [heq]
  · rw [heq]
    exact hask _ text h

theorem estimator_enlisted (h : P s.estimator) : P (enlisted su s).estimator := by
  rw [enlisted, State.note_estimator]
  exact List.foldlRecOn (motive := fun t : State => P t.estimator) (activated su s) _ h
    fun t ht r _ => estimator_enlist hask ht _ r.1 r.2

theorem estimator_settled (h : P s.estimator) : P (settled su s).estimator := by
  refine accept_keeps (P := fun t => P t.estimator) (fun t _ c _ _ ht => ?_)
    (estimator_enlisted hask h)
  rwa [acceptOne_estimator]

theorem estimator_step (h : P s.estimator) : P (step su s).state.estimator := by
  rw [step_eq]
  split
  · exact estimator_enlisted hask h
  split
  · rw [Step.state, State.note_estimator]
    exact estimator_settled hask h
  · rw [escalate_estimator]
    exact estimator_settled hask h

theorem estimator_ending (h : P s.estimator) : P (ending su s).estimator :=
  run_keeps (P := fun t => P t.estimator) (fun _ ht => estimator_step hask ht) _ s h

end Asking

section Counts

variable {su : Setup} {s : State} {v : Bytes → Int}

theorem counts_estimate (est : Estimator) (text : Bytes) (h : est.Faithful ∧ est.value = v) :
    (est.estimate text).2.Faithful ∧ (est.estimate text).2.value = v :=
  ⟨h.1.estimate_snd text, (est.value_estimate text).trans h.2⟩

theorem State.Counts.step (h : s.Counts v) : (step su s).state.Counts v :=
  estimator_step counts_estimate h

theorem State.Counts.ending (h : s.Counts v) : (ending su s).Counts v :=
  estimator_ending counts_estimate h

end Counts

end Lorebook.Scan
