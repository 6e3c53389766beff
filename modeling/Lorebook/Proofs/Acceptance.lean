import Lorebook.Proofs.Candidates
import Lorebook.Proofs.Pass

set_option autoImplicit false

/-!
What acceptance can decide about one candidate, and what it leaves alone over a whole lineup.
-/

namespace Lorebook.Scan

theorem mem_foldl_addOnce {y : Bytes} (gs xs : List Bytes) :
    y ∈ gs.foldl (fun xs g => addOnce g xs) xs ↔ y ∈ xs ∨ y ∈ gs := by
  induction gs generalizing xs with
  | nil => simp
  | cons g gs ih =>
    rw [List.foldl_cons, ih, mem_addOnce, List.mem_cons, or_assoc]

inductive Decided (su : Setup) (s : State) (c : Candidate) : State × Bool → Prop where
  | late : s.overflowed = true → c.entry.ignoreBudget = false →
      Decided su s c (s.drop c.key .budgetExhausted, false)
  | failed (r : Random) : rolls su c.entry = true →
      Decided su s c ({ State.drop { s with random := r } c.key .probabilityFailed with
        failedKeys := addOnce c.key s.failedKeys }, false)
  | overrun (r : Random) : c.entry.ignoreBudget = false → exceeds su s c = true →
      Decided su s c ({ State.drop { s with random := r } c.key .budgetExhausted with
        overflowed := true }, false)
  | taken (r : Random) : (s.overflowed = true → c.entry.ignoreBudget = true) →
      exceeds su s c = false → Decided su s c (State.select { s with random := r } c, true)

theorem decided_acceptOne (su : Setup) (s : State) (c : Candidate) :
    Decided su s c (acceptOne su s c) := by
  unfold acceptOne
  split
  · next h =>
    simp only [Bool.and_eq_true, Bool.not_eq_true'] at h
    exact .late h.1 h.2
  · next h =>
    dsimp only
    split
    · next hp =>
      refine .failed (roll su c.entry s.random).2 ?_
      by_cases hr : rolls su c.entry = true
      · exact hr
      · simp [roll, hr] at hp
    · have hx : exceeds su { s with random := (roll su c.entry s.random).2 } c = exceeds su s c :=
        rfl
      rw [hx]
      split
      · next he =>
        refine .overrun _ ?_ he
        simp only [exceeds, Bool.and_eq_true, Bool.not_eq_true'] at he
        exact he.1
      · next he =>
        refine .taken _ ?_ (by simpa using he)
        intro ho
        simpa [ho] using h

section One

variable {su : Setup} {s : State} {c : Candidate}

theorem acceptOne_elim {P : State × Bool → Prop} (h : ∀ r, Decided su s c r → P r) :
    P (acceptOne su s c) := h _ (decided_acceptOne su s c)

theorem acceptOne_candidates (su : Setup) (s : State) (c : Candidate) :
    ∃ fate, fate ≠ .undecided ∧
      (acceptOne su s c).1.candidates = s.candidates.setFate c.key fate := by
  apply acceptOne_elim (P := fun r => ∃ fate, fate ≠ .undecided ∧
    r.1.candidates = s.candidates.setFate c.key fate)
  intro r hr
  cases hr with
  | late _ _ => exact ⟨_, Fate.noConfusion, rfl⟩
  | failed r _ => exact ⟨_, Fate.noConfusion, rfl⟩
  | overrun r _ _ => exact ⟨_, Fate.noConfusion, rfl⟩
  | taken r _ _ => exact ⟨_, Fate.noConfusion, rfl⟩

theorem acceptOne_bare (su : Setup) (s : State) (c : Candidate) :
    (acceptOne su s c).1.candidates.bare = s.candidates.bare := by
  obtain ⟨fate, _, h⟩ := acceptOne_candidates su s c
  rw [h, Candidates.bare_setFate]

theorem find?_acceptOne_of_ne {k : Bytes} (h : k ≠ c.key) :
    (acceptOne su s c).1.candidates.find? k = s.candidates.find? k := by
  obtain ⟨fate, _, hc⟩ := acceptOne_candidates su s c
  rw [hc, Candidates.find?_setFate_of_ne _ _ _ h]

theorem overflowed_acceptOne (h : s.overflowed = true) :
    (acceptOne su s c).1.overflowed = true := by
  apply acceptOne_elim (P := fun r => r.1.overflowed = true)
  intro r hr
  cases hr with
  | late _ _ => exact h
  | failed r _ => exact h
  | overrun r _ _ => rfl
  | taken r _ _ => exact h

theorem selectedKeys_acceptOne {k : Bytes} (h : k ∈ s.selectedKeys) :
    k ∈ (acceptOne su s c).1.selectedKeys := by
  apply acceptOne_elim (P := fun r => k ∈ r.1.selectedKeys)
  intro r hr
  cases hr with
  | late _ _ => exact h
  | failed r _ => exact h
  | overrun r _ _ => exact h
  | taken r _ _ => exact mem_addOnce.mpr (.inl h)

end One

section All

variable {su : Setup}

theorem accept_cons (su : Setup) (s : State) (k : Bytes) (ks : List Bytes) :
    (accept su s (k :: ks)).1 =
      match s.candidates.find? k with
      | none => (accept su s ks).1
      | some c => (accept su (acceptOne su s c).1 ks).1 := by
  simp only [accept]
  cases s.candidates.find? k <;> rfl

theorem accept_append (su : Setup) (s : State) (as bs : List Bytes) :
    (accept su s (as ++ bs)).1 = (accept su (accept su s as).1 bs).1 := by
  induction as generalizing s with
  | nil => rfl
  | cons k as ih =>
    rw [List.cons_append, accept_cons, accept_cons]
    cases s.candidates.find? k with
    | none => exact ih s
    | some c => exact ih _

/-- What one decision keeps is kept by a lineup. -/
theorem accept_keeps {P : State → Prop} {ks : List Bytes}
    (hstep : ∀ s k c, k ∈ ks → s.candidates.find? k = some c → P s → P (acceptOne su s c).1)
    {s : State} (h : P s) : P (accept su s ks).1 := by
  induction ks generalizing s with
  | nil => exact h
  | cons k ks ih =>
    have hrest : ∀ s k c, k ∈ ks → s.candidates.find? k = some c → P s → P (acceptOne su s c).1 :=
      fun s k' c hk' => hstep s k' c (List.mem_cons_of_mem k hk')
    rw [accept_cons]
    cases hc : s.candidates.find? k with
    | none => exact ih hrest h
    | some c => exact ih hrest (hstep s k c List.mem_cons_self hc h)

theorem accept_bare (su : Setup) (s : State) (ks : List Bytes) :
    (accept su s ks).1.candidates.bare = s.candidates.bare := by
  apply accept_keeps (P := fun t => t.candidates.bare = s.candidates.bare)
  · intro t k c _ _ ht
    rw [acceptOne_bare, ht]
  · rfl

theorem find?_accept_of_not_mem {s : State} {ks : List Bytes} {k : Bytes} (h : k ∉ ks) :
    (accept su s ks).1.candidates.find? k = s.candidates.find? k := by
  apply accept_keeps (P := fun t => t.candidates.find? k = s.candidates.find? k)
  · intro t k' c hk' hc ht
    have hne : k ≠ c.key := by
      rw [Candidates.key_of_find? hc]
      rintro rfl
      exact h hk'
    rw [find?_acceptOne_of_ne hne, ht]
  · rfl

theorem overflowed_accept {s : State} (ks : List Bytes) (h : s.overflowed = true) :
    (accept su s ks).1.overflowed = true :=
  accept_keeps (P := fun t => t.overflowed = true) (fun _ _ _ _ _ ht => overflowed_acceptOne ht) h

theorem not_overflowed_of_accept {s : State} {ks : List Bytes}
    (h : (accept su s ks).1.overflowed = false) : s.overflowed = false := by
  cases ho : s.overflowed with
  | false => rfl
  | true =>
    rw [overflowed_accept ks ho] at h
    cases h

theorem selectedKeys_accept {s : State} {k : Bytes} (ks : List Bytes) (h : k ∈ s.selectedKeys) :
    k ∈ (accept su s ks).1.selectedKeys :=
  accept_keeps (P := fun t => k ∈ t.selectedKeys)
    (fun _ _ _ _ _ ht => selectedKeys_acceptOne ht) h

end All

/-- A candidate that need not roll after the decision about it: only the budget counts. -/
structure Decisive (su : Setup) (s : State) (k : Bytes) (c : Candidate) : Prop where
  found : s.candidates.find? k = some c
  calm : rolls su c.entry = false
  fate : c.fate = .selected ∧ k ∈ s.selectedKeys ∨
    c.fate = .dropped .budgetExhausted ∧ s.overflowed = true ∧ c.entry.ignoreBudget = false

section Calm

variable {su : Setup} {s : State} {k : Bytes} {c : Candidate} {ks : List Bytes}

theorem decisive_acceptOne (hc : s.candidates.find? k = some c)
    (hcalm : rolls su c.entry = false) : ∃ d, Decisive su (acceptOne su s c).1 k d := by
  have hck : c.key = k := Candidates.key_of_find? hc
  have hfate (fate : Fate) :
      (s.candidates.setFate c.key fate).find? k = some { c with fate } := by
    simp [hck, Candidates.find?_setFate_self, hc]
  apply acceptOne_elim (P := fun r => ∃ d, Decisive su r.1 k d)
  intro r hr
  cases hr with
  | late ho hi => exact ⟨_, hfate _, hcalm, .inr ⟨rfl, ho, hi⟩⟩
  | failed r hroll =>
    rw [hcalm] at hroll
    cases hroll
  | overrun r hi _ => exact ⟨_, hfate _, hcalm, .inr ⟨rfl, rfl, hi⟩⟩
  | taken r _ _ => exact ⟨_, hfate _, hcalm, .inl ⟨rfl, by simp [State.select, hck]⟩⟩

theorem Decisive.acceptOne {d : Candidate} (h : Decisive su s k c) (hd : d.key ≠ k) :
    Decisive su (acceptOne su s d).1 k c where
  found := by rw [find?_acceptOne_of_ne hd.symm, h.found]
  calm := h.calm
  fate := by
    rcases h.fate with ⟨hf, hk⟩ | ⟨hf, ho, hi⟩
    · exact .inl ⟨hf, selectedKeys_acceptOne hk⟩
    · exact .inr ⟨hf, overflowed_acceptOne ho, hi⟩

/-- A key may stand in a lineup twice; then the last decision counts. -/
theorem Decisive.accept (h : Decisive su s k c) : ∃ d, Decisive su (accept su s ks).1 k d := by
  apply accept_keeps (P := fun t => ∃ d, Decisive su t k d)
  · rintro t k' d' _ hd' ⟨d, hd⟩
    by_cases hkk : d'.key = k
    · have hsame : d' = d := by
        have hfound := hd.found
        rw [← hkk, Candidates.key_of_find? hd', hd'] at hfound
        exact Option.some.inj hfound
      subst hsame
      exact decisive_acceptOne hd.found hd.calm
    · exact ⟨d, hd.acceptOne hkk⟩
  · exact ⟨c, h⟩

theorem decisive_accept (hmem : k ∈ ks) (hc : s.candidates.find? k = some c)
    (hcalm : rolls su c.entry = false) : ∃ d, Decisive su (accept su s ks).1 k d := by
  induction ks generalizing s with
  | nil => cases hmem
  | cons k' ks ih =>
    rw [accept_cons]
    by_cases hkk : k = k'
    · subst hkk
      rw [hc]
      obtain ⟨d, hd⟩ := decisive_acceptOne hc hcalm
      exact hd.accept
    · have hrest := (List.mem_cons.mp hmem).resolve_left hkk
      cases hd : s.candidates.find? k' with
      | none => exact ih hrest hc
      | some d =>
        have hne : k ≠ d.key := by rwa [Candidates.key_of_find? hd]
        exact ih hrest (by rw [find?_acceptOne_of_ne hne, hc])

theorem Decisive.same {t : State} (h : Decisive su s k c) (hst : SameDecisions s t) :
    Decisive su t k c := by
  obtain ⟨hfound, hcalm, hfate⟩ := h
  rw [← hst.candidates] at hfound
  rw [← hst.selectedKeys, ← hst.overflowed] at hfate
  exact ⟨hfound, hcalm, hfate⟩

end Calm
end Lorebook.Scan
