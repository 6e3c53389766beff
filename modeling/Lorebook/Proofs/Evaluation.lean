import Lorebook.Proofs.Pass

set_option autoImplicit false

/-!
An evaluation as a run: the setup and the state with which its scan begins, and the outcome that it
draws from the state in which the run ends.
-/

namespace Lorebook

def Scanner.standard : Scanner where
  matchWholeWords := true
  caseSensitive := false
  maxRecursionSteps := 3
  maxBufferBytes := 1000000
  verbose := false
  estimator := .plain

def Book.constantTrio : Book where
  entries := [{ uid := lit "1", constant := true, content := lit "abcd" },
    { uid := lit "2", constant := true, content := lit "abcd" },
    { uid := lit "3", constant := true, content := lit "abcd" }]

namespace Scan

def State.initial (su : Setup) (random : Random) (log : List Bytes) : State :=
  { random, estimator := su.scanner.estimator, log }

/-- The setup and the state with which the scan of an evaluation begins. There is none if the
evaluation fails, or if no entry is triggered. -/
def opening? (sc : Scanner) (books : List Book) (o : Options) (vars : Variables)
    (random : Random) : Option (Setup × State) :=
  let entries := triggeredEntries books o.generation
  if books.isEmpty || entries.isEmpty then none
  else
    match Effects.start (o.messageCount.getD o.chat.length) entries vars o.stateKey false with
    | .error _ => none
    | .ok (effects, warnings) =>
      let su := setup sc books o (effects.check vars).1
      some (su, .initial su random (openingLine sc entries o.generation ++ warnings))

def started? (books : List Book) (o : Options) (vars : Variables) :
    Option (Effects × List Bytes) :=
  let entries := triggeredEntries books o.generation
  if books.isEmpty || entries.isEmpty then none
  else
    match Effects.start (o.messageCount.getD o.chat.length) entries vars o.stateKey false with
    | .error _ => none
    | .ok (effects, warnings) => some ((effects.check vars).1, warnings)

def ending (su : Setup) (s : State) : State := run su (passBound su) s

section Evaluate

variable {sc : Scanner} {books : List Book} {o : Options} {vars : Variables} {random : Random}
  {out : Outcome}

theorem evaluate_cases (h : (evaluate sc books o vars random).outcome = .ok out) :
    (opening? sc books o vars random = none ∧ out = outcome books o 0 []) ∨
      ∃ su s, opening? sc books o vars random = some (su, s) ∧
        out = outcome books o (ending su s).used (ending su s).candidates := by
  unfold evaluate at h
  unfold opening?
  dsimp only at h ⊢
  split at h
  · cases h
  next hb =>
  split at h
  · next he =>
    cases h
    exact .inl ⟨by simp [he], rfl⟩
  next he =>
  rw [if_neg (by simp [hb, he])]
  cases hs : Effects.start (o.messageCount.getD o.chat.length)
      (triggeredEntries books o.generation) vars o.stateKey false with
  | error f =>
    simp only [hs] at h
    cases h
  | ok r =>
    obtain ⟨effects, warnings⟩ := r
    simp only [hs] at h
    right
    refine ⟨_, _, rfl, ?_⟩
    cases h
    have hc (su : Setup) (s : State) : SameDecisions s (s.close su) := .note su s _
    rw [(hc _ _).used, (hc _ _).candidates]
    rfl

theorem evaluate_of_no_books (hb : books.isEmpty = true) : evaluate sc books o vars random =
    { outcome := .error .noBooks, vars, random, estimator := sc.estimator } := by
  rw [evaluate, if_pos hb]

theorem evaluate_of_untriggered (hb : books.isEmpty = false)
    (he : (triggeredEntries books o.generation).isEmpty = true) :
    evaluate sc books o vars random =
      { outcome := .ok (outcome books o 0 []), vars, random, estimator := sc.estimator,
        log := openingLine sc (triggeredEntries books o.generation) o.generation } := by
  unfold evaluate
  dsimp only
  rw [if_neg (by simp [hb]), if_pos he]

theorem evaluate_of_fault {f : Fault} (hb : books.isEmpty = false)
    (he : (triggeredEntries books o.generation).isEmpty = false)
    (hs : Effects.start (o.messageCount.getD o.chat.length) (triggeredEntries books o.generation)
      vars o.stateKey false = .error f) :
    evaluate sc books o vars random =
      { outcome := .error f, vars, random, estimator := sc.estimator,
        log := openingLine sc (triggeredEntries books o.generation) o.generation } := by
  unfold evaluate
  dsimp only
  rw [if_neg (by simp [hb]), if_neg (by simp [he]), hs]

theorem evaluate_of_start {effects : Effects} {warnings : List Bytes}
    (hb : books.isEmpty = false) (he : (triggeredEntries books o.generation).isEmpty = false)
    (hs : Effects.start (o.messageCount.getD o.chat.length) (triggeredEntries books o.generation)
      vars o.stateKey false = .ok (effects, warnings)) :
    let fx := (effects.check vars).1
    let su := setup sc books o fx
    let t := ending su (.initial su random
      (openingLine sc (triggeredEntries books o.generation) o.generation ++ warnings))
    evaluate sc books o vars random =
      { outcome := .ok (outcome books o t.used t.candidates)
        vars := (fx.commit ((t.candidates.filter (·.isSelected)).map (·.entry))
          (effects.check vars).2).2
        random := t.random
        estimator := t.estimator
        log := (t.close su).log } := by
  have hclose (su : Setup) (s : State) : (s.close su).used = s.used ∧
      (s.close su).candidates = s.candidates ∧ (s.close su).random = s.random ∧
      (s.close su).estimator = s.estimator := by
    unfold State.close State.note
    split <;> exact ⟨rfl, rfl, rfl, rfl⟩
  unfold evaluate
  dsimp only
  rw [if_neg (by simp [hb]), if_neg (by simp [he]), hs]
  dsimp only
  rw [(hclose _ _).1, (hclose _ _).2.1, (hclose _ _).2.2.1, (hclose _ _).2.2.2]
  rfl

inductive Course (books : List Book) (o : Options) (vars : Variables) : Prop
  | noBooks (hb : books.isEmpty = true)
  | untriggered (hb : books.isEmpty = false)
      (he : (triggeredEntries books o.generation).isEmpty = true)
  | fault (f : Fault) (hb : books.isEmpty = false)
      (he : (triggeredEntries books o.generation).isEmpty = false)
      (hs : Effects.start (o.messageCount.getD o.chat.length)
        (triggeredEntries books o.generation) vars o.stateKey false = .error f)
  | scan (effects : Effects) (warnings : List Bytes) (hb : books.isEmpty = false)
      (he : (triggeredEntries books o.generation).isEmpty = false)
      (hs : Effects.start (o.messageCount.getD o.chat.length)
        (triggeredEntries books o.generation) vars o.stateKey false = .ok (effects, warnings))

theorem course (books : List Book) (o : Options) (vars : Variables) : Course books o vars := by
  cases hb : books.isEmpty with
  | true => exact .noBooks hb
  | false =>
    cases he : (triggeredEntries books o.generation).isEmpty with
    | true => exact .untriggered hb he
    | false =>
      cases hs : Effects.start (o.messageCount.getD o.chat.length)
          (triggeredEntries books o.generation) vars o.stateKey false with
      | error f => exact .fault f hb he hs
      | ok started => exact .scan started.1 started.2 hb he hs

def Succeeds (books : List Book) (o : Options) (vars : Variables) : Prop :=
  books.isEmpty = false ∧ ((triggeredEntries books o.generation).isEmpty = true ∨
    ∃ r, Effects.start (o.messageCount.getD o.chat.length) (triggeredEntries books o.generation)
      vars o.stateKey false = .ok r)

theorem evaluate_ok_iff :
    (∃ out, (evaluate sc books o vars random).outcome = .ok out) ↔ Succeeds books o vars := by
  unfold evaluate Succeeds
  dsimp only
  split
  · next hb => simp [hb]
  next hb =>
  rw [Bool.not_eq_true] at hb
  split
  · next he => simp [hb, he]
  next he =>
  split
  · next f hf => simp [he, hf]
  · next effects warnings hf => simp [hb, hf]

theorem start_of_opening {su : Setup} {s : State}
    (h : opening? sc books o vars random = some (su, s)) :
    books.isEmpty = false ∧ (triggeredEntries books o.generation).isEmpty = false ∧
      ∃ effects warnings,
        Effects.start (o.messageCount.getD o.chat.length) (triggeredEntries books o.generation)
          vars o.stateKey false = .ok (effects, warnings) ∧
        su = setup sc books o (effects.check vars).1 ∧
        s = .initial su random
          (openingLine sc (triggeredEntries books o.generation) o.generation ++ warnings) := by
  unfold opening? at h
  dsimp only at h
  split at h
  · cases h
  next hb =>
  simp only [Bool.or_eq_true, not_or, Bool.not_eq_true] at hb
  split at h
  · cases h
  next effects warnings hs =>
  cases h
  exact ⟨hb.1, hb.2, effects, warnings, hs, rfl, rfl⟩

theorem evaluate_of_opening {su : Setup} {s : State}
    (h : opening? sc books o vars random = some (su, s)) :
    (evaluate sc books o vars random).outcome
      = .ok (outcome books o (ending su s).used (ending su s).candidates) := by
  obtain ⟨hb, he, effects, warnings, hs, rfl, rfl⟩ := start_of_opening h
  rw [evaluate_of_start hb he hs]

theorem opening?_of_start {effects : Effects} {warnings : List Bytes} (hb : books.isEmpty = false)
    (he : (triggeredEntries books o.generation).isEmpty = false)
    (hs : Effects.start (o.messageCount.getD o.chat.length) (triggeredEntries books o.generation)
      vars o.stateKey false = .ok (effects, warnings)) :
    opening? sc books o vars random
      = some (setup sc books o (effects.check vars).1,
          .initial (setup sc books o (effects.check vars).1) random
            (openingLine sc (triggeredEntries books o.generation) o.generation ++ warnings)) := by
  unfold opening?
  dsimp only
  rw [if_neg (by simp [hb, he]), hs]

theorem opening?_eq_map (sc : Scanner) (books : List Book) (o : Options) (vars : Variables)
    (random : Random) :
    opening? sc books o vars random = (started? books o vars).map fun (fx, warnings) =>
      (setup sc books o fx, .initial (setup sc books o fx) random
        (openingLine sc (triggeredEntries books o.generation) o.generation ++ warnings)) := by
  unfold opening? started?
  dsimp only
  split
  · rfl
  · cases Effects.start (o.messageCount.getD o.chat.length) (triggeredEntries books o.generation)
      vars o.stateKey false <;> rfl

theorem opening?_eq_some {su : Setup} {s : State}
    (h : opening? sc books o vars random = some (su, s)) :
    ∃ effects log, su = setup sc books o effects ∧ s = .initial su random log := by
  obtain ⟨-, -, _, _, -, hsu, hs⟩ := start_of_opening h
  exact ⟨_, _, hsu, hs⟩

end Evaluate
end Scan
end Lorebook
