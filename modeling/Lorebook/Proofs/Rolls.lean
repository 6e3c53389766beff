import Lorebook.Proofs.Gating

set_option autoImplicit false

/-!
The rolls of a scan. A key is rolled for once at most, since a roll decides about it: whoever passes
is selected or ends the scan, and whoever fails is on record as failed and is not looked at again.
-/

namespace Lorebook

theorem Random.take_take (r : Random) (m n : Nat) :
    ((r.take m).2.take n).2 = (r.take (m + n)).2 := by
  induction m generalizing r with
  | zero => simp [take]
  | succ m ih =>
    have hr := ih r.next.2
    rw [Nat.succ_add]
    exact hr

namespace Scan

/-- How the roll of a candidate ends, if it comes to one. -/
def rollOf? (su : Setup) (s : State) (c : Candidate) : Option Bool :=
  if s.overflowed && !c.entry.ignoreBudget then none
  else if rolls su c.entry then some (roll su c.entry s.random).1
  else none

def rollsIn (su : Setup) (s : State) : List Bytes → List (Bytes × Bool)
  | [] => []
  | k :: ks =>
    match s.candidates.find? k with
    | none => rollsIn su s ks
    | some c =>
      ((rollOf? su s c).map (k, ·)).toList ++ rollsIn su (acceptOne su s c).1 ks

def passRolls (su : Setup) (s : State) : List (Bytes × Bool) :=
  rollsIn su (resolved su s) (kept su s)

def acceptedKeys (su : Setup) (s : State) : List Bytes :=
  (accept su (resolved su s) (kept su s)).2

structure Failed (s : State) (k : Bytes) : Prop where
  recorded : k ∈ s.failedKeys
  found : ∃ c, s.candidates.find? k = some c ∧ c.fate = .dropped .probabilityFailed

section One

variable {su : Setup} {s : State} {k : Bytes} {c : Candidate}

/-- A decision takes one number if it rolls, and none otherwise. -/
theorem random_acceptOne (su : Setup) (s : State) (c : Candidate) :
    (acceptOne su s c).1.random
      = (s.random.take ((rollOf? su s c).map (c.key, ·)).toList.length).2 := by
  unfold acceptOne rollOf? roll
  dsimp only
  split
  · rfl
  by_cases hr : rolls su c.entry = true
  · simp only [hr, if_true]
    split
    · rfl
    split <;> rfl
  · simp only [hr, Bool.false_eq_true, if_false]
    split
    · rfl
    split <;> rfl

theorem rollOf?_eq_some {b : Bool} : rollOf? su s c = some b ↔
    (s.overflowed && !c.entry.ignoreBudget) = false ∧ rolls su c.entry = true ∧
      (roll su c.entry s.random).1 = b := by
  unfold rollOf?
  split
  · next h => simp [h]
  next h =>
  split
  · next hr =>
    have htime := Bool.eq_false_iff.mpr h
    exact ⟨fun hb => ⟨htime, hr, Option.some.inj hb⟩, fun hb => congrArg some hb.2.2⟩
  · next hr => simp [hr]

/-- Whoever passes is selected, or does not fit the budget. -/
theorem acceptOne_of_passed (h : rollOf? su s c = some true) :
    c.key ∈ (acceptOne su s c).1.selectedKeys ∨ (acceptOne su s c).1.overflowed = true := by
  obtain ⟨htime, _, hpass⟩ := rollOf?_eq_some.mp h
  unfold acceptOne
  simp only [htime, hpass, Bool.false_eq_true, Bool.not_true, if_false]
  split
  · exact .inr rfl
  · exact .inl (mem_addOnce.mpr (.inr rfl))

theorem acceptOne_of_failed (hc : s.candidates.find? k = some c)
    (h : rollOf? su s c = some false) :
    Failed (acceptOne su s c).1 k ∧ (acceptOne su s c).2 = false := by
  obtain ⟨htime, _, hfail⟩ := rollOf?_eq_some.mp h
  have hk := Candidates.key_of_find? hc
  unfold acceptOne
  simp only [htime, hfail, Bool.false_eq_true, Bool.not_false, if_false, if_true]
  refine ⟨⟨mem_addOnce.mpr (.inr hk.symm), ?_⟩, trivial⟩
  refine ⟨{ c with fate := .dropped .probabilityFailed }, ?_, rfl⟩
  simp only [State.drop, hk, Candidates.find?_setFate_self, hc, Option.map_some]

theorem selectedKeys_of_accepted (h : (acceptOne su s c).2 = true) :
    c.key ∈ (acceptOne su s c).1.selectedKeys := by
  revert h
  apply acceptOne_elim (P := fun r => r.2 = true → c.key ∈ r.1.selectedKeys)
  intro r hr h
  cases hr with
  | late _ _ => cases h
  | failed r _ => cases h
  | overrun r _ _ => cases h
  | taken r _ _ => exact mem_addOnce.mpr (.inr rfl)

theorem failedKeys_acceptOne (h : k ∈ s.failedKeys) : k ∈ (acceptOne su s c).1.failedKeys := by
  apply acceptOne_elim (P := fun r => k ∈ r.1.failedKeys)
  intro r hr
  cases hr with
  | late _ _ => exact h
  | failed r _ => exact mem_addOnce.mpr (.inl h)
  | overrun r _ _ => exact h
  | taken r _ _ => exact h

theorem Failed.acceptOne (h : Failed s k) (hc : k ≠ c.key) : Failed (acceptOne su s c).1 k where
  recorded := failedKeys_acceptOne h.recorded
  found := by
    rw [find?_acceptOne_of_ne hc]
    exact h.found

theorem Failed.same {t : State} (h : Failed s k) (hst : SameDecisions s t) : Failed t k where
  recorded := by
    rw [hst.failedKeys]
    exact h.recorded
  found := by
    rw [hst.candidates]
    exact h.found

end One

section Lineup

variable {su : Setup} {s : State} {ks : List Bytes} {k : Bytes} {b : Bool}

theorem accept_cons_of_find? {c : Candidate} (hc : s.candidates.find? k = some c) :
    accept su s (k :: ks) = ((accept su (acceptOne su s c).1 ks).1,
      if (acceptOne su s c).2 then k :: (accept su (acceptOne su s c).1 ks).2
      else (accept su (acceptOne su s c).1 ks).2) := by
  simp only [accept, hc]

theorem accept_cons_of_none (hc : s.candidates.find? k = none) :
    accept su s (k :: ks) = accept su s ks := by
  simp only [accept, hc]

theorem rollsIn_cons_of_find? {c : Candidate} (hc : s.candidates.find? k = some c) :
    rollsIn su s (k :: ks)
      = ((rollOf? su s c).map (k, ·)).toList ++ rollsIn su (acceptOne su s c).1 ks := by
  simp only [rollsIn, hc]

theorem rollsIn_cons_of_none (hc : s.candidates.find? k = none) :
    rollsIn su s (k :: ks) = rollsIn su s ks := by
  simp only [rollsIn, hc]

theorem random_accept (su : Setup) (s : State) (ks : List Bytes) :
    (accept su s ks).1.random = (s.random.take (rollsIn su s ks).length).2 := by
  induction ks generalizing s with
  | nil => rfl
  | cons k ks ih =>
    cases hc : s.candidates.find? k with
    | none =>
      rw [accept_cons_of_none hc, rollsIn_cons_of_none hc]
      exact ih s
    | some c =>
      rw [accept_cons_of_find? hc, rollsIn_cons_of_find? hc, ← Candidates.key_of_find? hc,
        List.length_append, ← Random.take_take, ← random_acceptOne]
      exact ih _

theorem rollsIn_sublist (su : Setup) (s : State) (ks : List Bytes) :
    ((rollsIn su s ks).map (·.1)).Sublist ks := by
  induction ks generalizing s with
  | nil => exact .slnil
  | cons k ks ih =>
    cases hc : s.candidates.find? k with
    | none =>
      rw [rollsIn_cons_of_none hc]
      exact (ih s).cons k
    | some c =>
      rw [rollsIn_cons_of_find? hc]
      cases rollOf? su s c with
      | none => exact (ih _).cons k
      | some b => exact (ih _).cons_cons k

theorem accepted_sublist (su : Setup) (s : State) (ks : List Bytes) :
    (accept su s ks).2.Sublist ks := by
  induction ks generalizing s with
  | nil => exact .slnil
  | cons k ks ih =>
    cases hc : s.candidates.find? k with
    | none =>
      rw [accept_cons_of_none hc]
      exact (ih s).cons k
    | some c =>
      rw [accept_cons_of_find? hc]
      dsimp only
      split
      · exact (ih _).cons_cons k
      · exact (ih _).cons k

theorem selectedKeys_of_mem_accepted (h : k ∈ (accept su s ks).2) :
    k ∈ (accept su s ks).1.selectedKeys := by
  induction ks generalizing s with
  | nil => cases h
  | cons k' ks ih =>
    cases hc : s.candidates.find? k' with
    | none =>
      rw [accept_cons_of_none hc] at h ⊢
      exact ih h
    | some c =>
      rw [accept_cons_of_find? hc] at h ⊢
      dsimp only at h ⊢
      split at h
      · next hsel =>
        rcases List.mem_cons.mp h with rfl | h
        · rw [← Candidates.key_of_find? hc]
          exact selectedKeys_accept ks (selectedKeys_of_accepted hsel)
        · exact ih h
      · exact ih h

theorem mem_rollsIn (hn : ks.Nodup) (h : (k, b) ∈ rollsIn su s ks) :
    ∃ c, s.candidates.find? k = some c ∧ rolls su c.entry = true ∧
      (b = true → k ∈ (accept su s ks).1.selectedKeys ∨ (accept su s ks).1.overflowed = true) ∧
      (b = false → Failed (accept su s ks).1 k ∧ k ∉ (accept su s ks).2) := by
  induction ks generalizing s with
  | nil => cases h
  | cons k' ks ih =>
    obtain ⟨hk', hn⟩ := List.nodup_cons.mp hn
    cases hc : s.candidates.find? k' with
    | none =>
      rw [rollsIn_cons_of_none hc] at h
      rw [accept_cons_of_none hc]
      exact ih hn h
    | some c =>
      have hck := Candidates.key_of_find? hc
      rw [rollsIn_cons_of_find? hc] at h
      rw [accept_cons_of_find? hc]
      rcases List.mem_append.mp h with hnow | hlater
      · simp only [Option.mem_toList, Option.map_eq_some_iff, Prod.mk.injEq] at hnow
        obtain ⟨_, hroll, rfl, rfl⟩ := hnow
        refine ⟨c, hc, (rollOf?_eq_some.mp hroll).2.1, ?_, ?_⟩
        · rintro rfl
          refine (acceptOne_of_passed hroll).imp (fun hsel => ?_) (overflowed_accept ks)
          exact selectedKeys_accept ks (hck ▸ hsel)
        · rintro rfl
          obtain ⟨hfailed, hno⟩ := acceptOne_of_failed hc hroll
          -- Its key does not come up again in the lineup.
          refine ⟨?_, ?_⟩
          · apply accept_keeps (P := fun t => Failed t k') _ hfailed
            intro t x d hx hd ht
            refine ht.acceptOne ?_
            rw [Candidates.key_of_find? hd]
            rintro rfl
            exact hk' hx
          · simp only [hno, Bool.false_eq_true, if_false]
            exact fun hm => hk' ((accepted_sublist _ _ _).subset hm)
      · have hne : k ≠ k' := by
          rintro rfl
          exact hk' ((rollsIn_sublist _ _ _).subset (List.mem_map_of_mem hlater))
        obtain ⟨d, hd, hrolls, hpassed, hfailed⟩ := ih hn hlater
        rw [find?_acceptOne_of_ne (hck.symm ▸ hne)] at hd
        refine ⟨d, hd, hrolls, hpassed, fun hb => ⟨(hfailed hb).1, ?_⟩⟩
        dsimp only
        split
        · simpa [hne] using (hfailed hb).2
        · exact (hfailed hb).2

end Lineup
section Pass

variable {su : Setup} {s t : State} {k : Bytes}

/-- A key does not come up in a pass: it is not activated, belongs to no group that is drawn, is not
rolled for and adds nothing to what later passes scan. -/
structure Absent (su : Setup) (s : State) (k : Bytes) : Prop where
  inactive : k ∉ activatedKeys su s
  undrawn : ∀ row ∈ groupsOf (enlisted su s) (lineup su s), k ∉ row.2
  unrolled : ∀ b, (k, b) ∉ passRolls su s
  unaccepted : k ∉ acceptedKeys su s

/-- A key has to roll in a pass, as the key of an entry and in the form that it has there. -/
structure AtStake (su : Setup) (s : State) (k : Bytes) (e : Entry) : Prop where
  key : e.key = k
  calm : su.stickyActive k = false
  candidate : ∃ c, (resolved su s).candidates.find? k = some c ∧ Form su e c.entry ∧
    c.entry.useProbability = true ∧ c.entry.probability < 100
  own : su.forced.find? e = none → e.useProbability = true ∧ e.probability < 100

theorem mem_kept_of_mem_passRolls {r : Bytes × Bool} (h : r ∈ passRolls su s) : r.1 ∈ kept su s :=
  (rollsIn_sublist su _ _).subset (List.mem_map_of_mem h)

theorem absent_of_not_mem (h : k ∉ activatedKeys su s) : Absent su s k where
  inactive := h
  undrawn _ hrow hk := h ((lineup_perm su s).mem_iff.mp (mem_of_mem_groupsOf hrow hk))
  unrolled _ hr := h (mem_kept (mem_kept_of_mem_passRolls hr))
  unaccepted hk := h (mem_kept ((accepted_sublist su _ _).subset hk))

theorem failedKeys_settled (h : k ∈ s.failedKeys) : k ∈ (settled su s).failedKeys := by
  have hled : (resolved su s).failedKeys = s.failedKeys := (enlisted_ledger su s).failedKeys
  rw [← hled] at h
  exact accept_keeps (P := fun t => k ∈ t.failedKeys)
    (fun _ _ _ _ _ ht => failedKeys_acceptOne ht) h

theorem not_mem_activatedKeys_of_failed (h : k ∈ s.failedKeys) : k ∉ activatedKeys su s := by
  intro hact
  obtain ⟨_, _, _, _, _, hfree⟩ := mem_activatedKeys hact
  exact hfree h

theorem Failed.settled (h : Failed s k) : Failed (settled su s) k where
  recorded := failedKeys_settled h.recorded
  found := by
    rw [find?_settled_of_not_mem (not_mem_activatedKeys_of_failed h.recorded)]
    exact h.found

theorem atStake_of_mem (hs : Coherent su s) (hn : (su.entries.map (·.key)).Nodup) {b : Bool}
    (h : (k, b) ∈ passRolls su s) : ∃ e ∈ su.entries, AtStake su s k e := by
  obtain ⟨c, hc, hrolls, _⟩ := mem_rollsIn (nodup_kept (nodup_activatedKeys hn s)) h
  have hck := Candidates.key_of_find? hc
  have hsound := hs.resolved.sound c (Candidates.mem_of_find? hc)
  obtain ⟨e, he, hkey, hform⟩ := hsound.form
  simp only [rolls, Bool.and_eq_true, Bool.not_eq_true', decide_eq_true_eq, hsound.entry_key,
    hck] at hrolls
  obtain ⟨⟨huse, hless⟩, hcalm⟩ := hrolls
  refine ⟨e, he, hkey.trans hck, hcalm, ⟨c, hc, hform, huse, hless⟩, fun hfree => ?_⟩
  have hbeyond := hform.beyond hfree
  rw [← hbeyond.useProbability, ← hbeyond.probability]
  exact ⟨huse, hless⟩

end Pass

section History

variable {su : Setup} {passes : List State} {s t : State} {k : Bytes}

structure Rolled (su : Setup) (passes : List State) (s : State) : Prop where
  once : ((passes.flatMap (passRolls su)).map (·.1)).Nodup
  failed : ∀ k, (k, false) ∈ passes.flatMap (passRolls su) → Failed s k

/-- When another pass follows, all that has been rolled for or accepted has been decided about. -/
structure Closed (su : Setup) (passes : List State) (s : State) : Prop extends
    Rolled su passes s where
  passed : ∀ k, (k, true) ∈ passes.flatMap (passRolls su) → k ∈ s.selectedKeys
  accepted : ∀ r ∈ passes, ∀ k ∈ acceptedKeys su r, k ∈ s.selectedKeys

theorem Closed.not_mem_activatedKeys (h : Closed su passes s) {r : Bytes × Bool}
    (hr : r ∈ passes.flatMap (passRolls su)) : r.1 ∉ activatedKeys su s := by
  obtain ⟨k, b⟩ := r
  cases b with
  | false => exact not_mem_activatedKeys_of_failed (h.failed k hr).recorded
  | true =>
    intro hact
    obtain ⟨_, _, _, _, hfree, _⟩ := mem_activatedKeys hact
    exact hfree (h.passed k hr)

theorem Closed.settled (hn : (su.entries.map (·.key)).Nodup) (h : Closed su passes s) :
    Rolled su (passes ++ [s]) (settled su s) where
  once := by
    have hnew : ((passRolls su s).map (·.1)).Nodup :=
      (rollsIn_sublist su _ _).nodup (nodup_kept (nodup_activatedKeys hn s))
    simp only [List.flatMap_append, List.flatMap_singleton, List.map_append]
    refine h.once.append hnew ?_
    intro k hold hk
    obtain ⟨r, hr, rfl⟩ := List.mem_map.mp hold
    obtain ⟨r', hr', heq⟩ := List.mem_map.mp hk
    apply h.not_mem_activatedKeys hr
    rw [← heq]
    exact mem_kept (mem_kept_of_mem_passRolls hr')
  failed k hk := by
    rw [List.flatMap_append, List.flatMap_singleton, List.mem_append] at hk
    rcases hk with hk | hk
    · exact (h.failed k hk).settled
    · obtain ⟨_, _, _, _, hfailed⟩ := mem_rollsIn (nodup_kept (nodup_activatedKeys hn s)) hk
      exact (hfailed rfl).1

theorem Rolled.same (h : Rolled su passes s) (hst : SameDecisions s t) : Rolled su passes t where
  once := h.once
  failed k hk := (h.failed k hk).same hst

theorem Closed.step (hn : (su.entries.map (·.key)).Nodup) (h : Closed su passes s) :
    Rolled su (passes ++ [s]) (step su s).state :=
  (h.settled hn).same (step_decisions su s)

theorem Closed.again (hn : (su.entries.map (·.key)).Nodup) (h : Closed su passes s)
    (hst : Scan.step su s = .again t) : Closed su (passes ++ [s]) t := by
  have hd := decisions_of_again hst
  refine ⟨(h.settled hn).same hd, fun k hk => ?_, fun r hr k hk => ?_⟩
  · rw [hd.selectedKeys]
    rw [List.flatMap_append, List.flatMap_singleton, List.mem_append] at hk
    rcases hk with hk | hk
    · exact selectedKeys_settled (h.passed k hk)
    · obtain ⟨_, _, _, hpassed, _⟩ := mem_rollsIn (nodup_kept (nodup_activatedKeys hn s)) hk
      refine (hpassed rfl).resolve_right fun hover => ?_
      -- The budget has lasted, or no pass would follow.
      have hlast : (Scan.settled su s).overflowed = true := hover
      rw [not_overflowed_of_again hst] at hlast
      cases hlast
  · rw [hd.selectedKeys]
    rcases List.mem_append.mp hr with hr | hr
    · exact selectedKeys_settled (h.accepted r hr k hk)
    · rw [List.mem_singleton.mp hr] at hk
      exact selectedKeys_of_mem_accepted hk

theorem Closed.of_split (hn : (su.entries.map (·.key)).Nodup) (h : Closed su [] s)
    {fuel : Nat} {before after : List State} (ht : trace su fuel s = before ++ t :: after) :
    Closed su before t := by
  have hbefore := trace_history (fun _ _ _ hu hst => hu.again hn hst) h ht
  simpa using hbefore

theorem Closed.ending (hn : (su.entries.map (·.key)).Nodup) (h : Closed su [] s) :
    Rolled su (trace su (passBound su) s) (ending su s) :=
  run_history (fun _ _ _ ht hst => ht.again hn hst) (fun _ _ ht => ht.step hn)
    (fun _ _ ht => ht.toRolled) (passBound su) h

/-- After a failed roll the key does not come up again, and it has not been accepted before. -/
theorem Closed.failed_final (hn : (su.entries.map (·.key)).Nodup) (h : Closed su [] s)
    {fuel : Nat} {before after : List State} (ht : trace su fuel s = before ++ t :: after)
    (hk : (k, false) ∈ passRolls su t) :
    (∀ u ∈ trace su fuel s, k ∉ acceptedKeys su u) ∧ ∀ u ∈ after, Absent su u k := by
  have hlater (u : State) (hu : u ∈ after) : Absent su u k := by
    obtain ⟨mid, rest, rfl⟩ := List.append_of_mem hu
    have hsplit : trace su fuel s = (before ++ t :: mid) ++ u :: rest := by rw [ht]; simp
    apply absent_of_not_mem
    exact (h.of_split hn hsplit).not_mem_activatedKeys (r := (k, false))
      (List.mem_flatMap.mpr ⟨t, by simp, hk⟩)
  refine ⟨fun u hu hacc => ?_, hlater⟩
  rw [ht, List.mem_append, List.mem_cons] at hu
  rcases hu with hu | rfl | hu
  · obtain ⟨_, _, _, _, hfree, _⟩ := mem_activatedKeys (mem_kept (mem_kept_of_mem_passRolls hk))
    exact hfree ((h.of_split hn ht).accepted u hu k hacc)
  · obtain ⟨_, _, _, _, hfailed⟩ := mem_rollsIn (nodup_kept (nodup_activatedKeys hn u)) hk
    exact (hfailed rfl).2 hacc
  · exact (hlater u hu).unaccepted hacc

end History

section Evaluate

variable {sc : Scanner} {books : List Book} {o : Options} {vars : Variables} {random : Random}
  {su : Setup} {s : State}

/-- Each key is rolled for at most once in a scan, by an entry that has to roll. A key that fails is
accepted in no pass, does not come up in any later one, and ends as dropped for that reason. -/
theorem rolls_final (h : opening? sc books o vars random = some (su, s))
    (hn : ((triggeredEntries books o.generation).map (·.key)).Nodup) :
    (∀ t ∈ trace su (passBound su) s,
      (settled su t).random = ((resolved su t).random.take (passRolls su t).length).2 ∧
      ∀ k b, (k, b) ∈ passRolls su t →
        ∃ e ∈ triggeredEntries books o.generation, AtStake su t k e) ∧
    (((trace su (passBound su) s).flatMap (passRolls su)).map (·.1)).Nodup ∧
    ∃ out, (evaluate sc books o vars random).outcome = .ok out ∧
      ∀ before t after, trace su (passBound su) s = before ++ t :: after →
        ∀ k, (k, false) ∈ passRolls su t →
          (∀ u ∈ trace su (passBound su) s, k ∉ acceptedKeys su u) ∧
          (∀ u ∈ after, Absent su u k) ∧
          ∃ c ∈ out.candidates, c.key = k ∧ c.isSelected = false ∧
            c.dropReason? = some .probabilityFailed := by
  have hcoherent := coherent_of_opening h
  have hevaluate := evaluate_of_opening h
  obtain ⟨fx, log, hsu, hs⟩ := opening?_eq_some h
  have hentries : su.entries = triggeredEntries books o.generation := by rw [hsu]; rfl
  have hbegin : Closed su [] s := by
    rw [hs]
    exact ⟨⟨by simp, by simp⟩, by simp, by simp⟩
  rw [← hentries] at hn ⊢
  have hend := hbegin.ending hn
  refine ⟨fun t ht => ⟨random_accept su _ _, fun k b hk => ?_⟩, hend.once, _, hevaluate, ?_⟩
  · exact atStake_of_mem (hcoherent.of_mem_trace ht) hn hk
  · intro before t after hsplit k hk
    obtain ⟨haccepted, habsent⟩ := hbegin.failed_final hn hsplit hk
    have hmem : (k, false) ∈ (trace su (passBound su) s).flatMap (passRolls su) :=
      List.mem_flatMap.mpr ⟨t, by simp [hsplit], hk⟩
    obtain ⟨c, hc, hfate⟩ := (hend.failed k hmem).found
    refine ⟨haccepted, habsent, c, Candidates.mem_of_find? hc, Candidates.key_of_find? hc, ?_, ?_⟩
    · simp [Candidate.isSelected, hfate]
    · simp [Candidate.dropReason?, hfate]

def coinBook : Book where
  entries := [{ uid := lit "1", constant := true, probability := 50, content := lit "abcd" }]

theorem rolls_final_coinBook : ∃ su s out,
    opening? .standard [coinBook] {} [] (.ofList [1]) = some (su, s) ∧
    (evaluate .standard [coinBook] {} [] (.ofList [1])).outcome = .ok out ∧
    (passRolls su s).map (·.1) = [lit "unknown:unnamed.1"] ∧
    ((lit "unknown:unnamed.1", false) ∈ passRolls su s →
      ∃ c ∈ out.candidates, c.isSelected = false ∧
        c.dropReason? = some .probabilityFailed) := by
  have hcheck : (opening? .standard [coinBook] {} [] (.ofList [1])).any (fun p =>
      (passRolls p.1 p.2).map (·.1) = [lit "unknown:unnamed.1"]) = true := by
    decide +kernel
  obtain ⟨⟨su, s⟩, hopen, hrolls⟩ := (Option.any_eq_true _ _).mp hcheck
  obtain ⟨_, _, out, hout, hfinal⟩ := rolls_final hopen (by decide)
  refine ⟨su, s, out, hopen, hout, of_decide_eq_true hrolls, fun hfailed => ?_⟩
  obtain ⟨before, after, hsplit⟩ := List.append_of_mem (mem_trace_self (passBound_pos su) s)
  obtain ⟨_, _, c, hc, _, hout, hreason⟩ := hfinal before s after hsplit _ hfailed
  exact ⟨c, hc, hout, hreason⟩

end Evaluate
end Scan
end Lorebook
