import Lorebook.Proofs.Evaluation

set_option autoImplicit false

/-!
The log of a scan is written and never read: what stands in it beforehand changes nothing.
-/

namespace Lorebook.Scan

def State.after (s : State) (lines : List Bytes) : State := { s with log := lines ++ s.log }

def Step.after : Step → List Bytes → Step
  | .stop s, lines => .stop (s.after lines)
  | .again s, lines => .again (s.after lines)

section Pass

variable (su : Setup) (s : State) (lines : List Bytes)

theorem note_after (line : Bytes) : (s.after lines).note su line = (s.note su line).after lines := by
  unfold State.note
  split
  · simp [State.after]
  · rfl

theorem renew_after (key : Bytes) (kind : ActivationKind) (v : Entry) (p q : List Bytes) :
    (s.after lines).renew key kind v p q = (s.renew key kind v p q).after lines := by
  simp only [State.renew, State.estimate, State.after]
  cases s.candidates.find? key <;> rfl

theorem keep_after (kind : ActivationKind) (e : Entry) (mark : Bytes) :
    (s.after lines).keep kind e mark = (s.keep kind e mark).after lines := by
  simp only [State.keep]
  rw [renew_after]
  simp only [State.after]
  cases s.candidates.find? e.key <;> rfl

theorem enlist_after (k : PassKind) (e : Entry) (tr : Trigger) :
    (s.after lines).enlist k e tr = (s.enlist k e tr).after lines := by
  cases tr with
  | forced o => exact renew_after s lines _ _ _ _ _
  | constant => exact keep_after s lines _ _ _
  | sticky => exact keep_after s lines _ _ _
  | keys p q => exact renew_after s lines _ _ _ _ _

theorem enlisted_after : enlisted su (s.after lines) = (enlisted su s).after lines := by
  have hfold (es : List (Entry × Trigger)) (u : State) :
      es.foldl (fun t row => t.enlist (passKind su s) row.1 row.2) (u.after lines)
        = (es.foldl (fun t row => t.enlist (passKind su s) row.1 row.2) u).after lines := by
    induction es generalizing u with
    | nil => rfl
    | cons row es ih => simp only [List.foldl_cons, enlist_after, ih]
  have hactivate : activate su { s.after lines with passes := s.passes + 1 }
      = ((activate su { s with passes := s.passes + 1 }).1.after lines,
          (activate su { s with passes := s.passes + 1 }).2) :=
    Prod.ext (hfold (activated su s) { s with passes := s.passes + 1 }) rfl
  -- The line that a pass logs tells what it activates, which the earlier lines do not change.
  let noted (r : State × List Bytes) : State :=
    r.1.note su (lit "pass " ++ Bytes.ofNat r.1.passes ++ lit " (" ++ (passKind su s).name
      ++ lit "): " ++ Bytes.ofNat r.2.length ++ lit " activated")
  exact (congrArg noted hactivate).trans (note_after su _ lines _)

theorem acceptOne_after (c : Candidate) :
    acceptOne su (s.after lines) c = ((acceptOne su s c).1.after lines, (acceptOne su s c).2) := by
  have hlate : ((s.after lines).overflowed && !c.entry.ignoreBudget)
      = (s.overflowed && !c.entry.ignoreBudget) := rfl
  have hroll : roll su c.entry (s.after lines).random = roll su c.entry s.random := rfl
  have hover (r : Random) : exceeds su { s.after lines with random := r } c
      = exceeds su { s with random := r } c := rfl
  unfold acceptOne
  rw [hlate, hroll]
  dsimp only
  rw [hover]
  repeat' split
  all_goals rfl

theorem accept_after (ks : List Bytes) :
    accept su (s.after lines) ks = ((accept su s ks).1.after lines, (accept su s ks).2) := by
  induction ks generalizing s with
  | nil => rfl
  | cons k ks ih =>
    have hfind : (s.after lines).candidates.find? k = s.candidates.find? k := rfl
    simp only [accept, hfind]
    cases s.candidates.find? k with
    | none => exact ih s
    | some c => simp only [acceptOne_after, ih]

theorem settled_after : settled su (s.after lines) = (settled su s).after lines ∧
    (accept su (resolved su (s.after lines)) (kept su (s.after lines))).2
      = (accept su (resolved su s) (kept su s)).2 := by
  have hresolved : resolved su (s.after lines) = (resolved su s).after lines := by
    simp only [resolved, lineup, enlisted_after]
    rfl
  have hkept : kept su (s.after lines) = kept su s := by
    simp only [kept, lineup, enlisted_after]
    rfl
  simp only [settled, hresolved, hkept, accept_after, and_self]

theorem widen_after : widen su (s.after lines) = (widen su s).after lines := by
  have hcan : canWiden su (s.after lines) = canWiden su s := rfl
  simp only [widen, hcan]
  split
  · exact congrArg Step.again (note_after su { s with widened := s.widened + 1 } lines _)
  · rfl

theorem feed_after (fresh : Bytes) :
    feed su (s.after lines) fresh = (feed su s fresh).after lines := by
  have hnote (p : Prop) [Decidable p] (t : State) (line : Bytes) :
      (if p then (t.after lines).note su line else t.after lines)
        = (if p then t.note su line else t).after lines := by
    split
    · exact note_after su t lines line
    · rfl
  let opened (t : State) : State :=
    { t with level := if t.level < su.topLevel then t.level + 1 else t.level }
  exact congrArg opened (hnote _ { s with
    buffer := grown su.scanner.maxBufferBytes s.buffer fresh
    recursionSteps := s.recursionSteps + 1 } _)

theorem escalate_after (accepted : List Bytes) :
    escalate su (s.after lines) accepted = (escalate su s accepted).after lines := by
  have hfresh : freshContent (s.after lines) accepted = freshContent s accepted := rfl
  have hsteps : (s.after lines).recursionSteps = s.recursionSteps := rfl
  have hbuffer : (s.after lines).buffer = s.buffer := rfl
  have hnext : nextLevel? su (s.after lines) = nextLevel? su s := rfl
  unfold escalate
  dsimp only
  rw [hfresh, hsteps, hbuffer, hnext, note_after, feed_after, widen_after]
  split
  · split <;> rfl
  · split <;> rfl

theorem step_after : step su (s.after lines) = (step su s).after lines := by
  obtain ⟨hsettled, haccepted⟩ := settled_after su s lines
  have hkeys : activatedKeys su (s.after lines) = activatedKeys su s := rfl
  have hover : ((settled su s).after lines).overflowed = (settled su s).overflowed := rfl
  have hused : ((settled su s).after lines).used = (settled su s).used := rfl
  rw [step_eq, step_eq, hkeys, hsettled, haccepted, enlisted_after, escalate_after, hover, hused,
    note_after]
  repeat' split
  all_goals rfl

theorem run_after (fuel : Nat) : run su fuel (s.after lines) = (run su fuel s).after lines := by
  induction fuel generalizing s with
  | zero => rfl
  | succ fuel ih =>
    simp only [run, step_after]
    cases step su s with
    | stop t => rfl
    | again t => exact ih t

end Pass

/-- What is found does not depend on what is logged before. -/
theorem ending_initial (su : Setup) (random : Random) (lines : List Bytes) :
    ending su (.initial su random lines) = (ending su (.initial su random [])).after lines := by
  have hafter : State.initial su random lines = (State.initial su random []).after lines := by
    simp [State.initial, State.after]
  rw [ending, ending, hafter, run_after]

end Lorebook.Scan
