import Lorebook.Proofs.Levels

set_option autoImplicit false

/-!
A scan leaves nothing behind. The pass that ends it is the last to change anything, so that what
could still be activated at the end, on the final buffer and in the final window, has become a
candidate. Unless the number of recursion steps or the budget cuts the scan off, that buffer holds
all that was there to feed.
-/

namespace Lorebook.Scan

namespace SameReach

variable {su : Setup} {s t : State} {e : Entry}

theorem passKind (h : SameReach s t) (su : Setup) : passKind su t = passKind su s := by
  rw [Scan.passKind, Scan.passKind, h.buffer, h.widened]

theorem textFor (h : SameReach s t) (su : Setup) (e : Entry) : textFor su t e = textFor su s e := by
  rw [Scan.textFor, Scan.textFor, passDepth, passDepth, h.passKind su, h.buffer, h.widened]

theorem admits (h : SameReach s t) (ha : Admits su t e) : Admits su s e where
  enabled := ha.enabled
  delay := ha.delay
  cooldown := ha.cooldown
  deferred hd hs := by
    rw [← h.passKind su, ← h.level]
    exact ha.deferred hd hs
  excluded hx hs := by
    rw [← h.passKind su]
    exact ha.excluded hx hs

theorem called (h : SameReach s t) (hc : Called su t e) : Called su s e := by
  cases hc with
  | forced ho => exact .forced ho
  | constant hc => exact .constant hc
  | sticky hs => exact .sticky hs
  | keys ha => exact .keys (h.textFor su e ▸ ha)

end SameReach

section Last

variable {su : Setup} {s t u : State}

theorem Passes.mem_last {n fuel : Nat} (h : Passes su s n u) (hf : n ≤ fuel) :
    ∃ t ∈ trace su fuel s, step su t = .stop u := by
  obtain ⟨t, ht, hstop, _⟩ := h.last_of_again (R := fun _ _ => True) (fun _ => trivial)
    (fun _ _ => trivial) (fun _ => trivial) hf
  exact ⟨t, ht, hstop⟩

theorem reach_of_stop (h : step su t = .stop u) : SameReach t u := by
  have hsettled := SameReach.settled su t
  rw [step_eq] at h
  split at h
  · cases h
    exact .enlisted su t
  split at h
  · cases h
    exact hsettled.trans (.note su _ _)
  unfold escalate at h
  dsimp only at h
  split at h
  · split at h
    · cases h
      exact hsettled.trans (.note su _ _)
    · cases h
  split at h
  · cases h
  · unfold widen at h
    split at h
    · cases h
    · cases h
      exact hsettled

end Last

section Recorded

variable {su : Setup} {s t : State} {k : Bytes}

def Recorded (s : State) : Prop :=
  ∀ k, k ∈ s.selectedKeys ∨ k ∈ s.failedKeys → k ∈ s.candidates.keys

theorem Recorded.same (h : Recorded s) (hst : SameDecisions s t) : Recorded t := by
  unfold Recorded
  rw [hst.selectedKeys, hst.failedKeys, hst.candidates]
  exact h

theorem Recorded.acceptOne {c : Candidate} (h : Recorded s) (hc : s.candidates.find? k = some c) :
    Recorded (acceptOne su s c).1 := by
  have hmem : c.key ∈ s.candidates.keys := List.mem_map_of_mem (Candidates.mem_of_find? hc)
  intro x hx
  rw [Candidates.keys_eq_of_bare (acceptOne_bare su s c)]
  revert x
  apply acceptOne_elim
    (P := fun r => ∀ x, x ∈ r.1.selectedKeys ∨ x ∈ r.1.failedKeys → x ∈ s.candidates.keys)
  intro r hr x hx
  cases hr with
  | late _ _ => exact h x hx
  | overrun r _ _ => exact h x hx
  | failed r _ =>
    rcases hx with hx | hx
    · exact h x (.inl hx)
    · rcases mem_addOnce.mp hx with hx | rfl
      · exact h x (.inr hx)
      · exact hmem
  | taken r _ _ =>
    rcases hx with hx | hx
    · rcases mem_addOnce.mp hx with hx | rfl
      · exact h x (.inl hx)
      · exact hmem
    · exact h x (.inr hx)

theorem Recorded.settled (h : Recorded s) : Recorded (settled su s) := by
  have hled := enlisted_ledger su s
  have hgrow (k : Bytes) (hk : k ∈ s.candidates.keys) : k ∈ (enlisted su s).candidates.keys := by
    rw [← Candidates.keys_eq_of_bare (settled_bare su s)]
    exact mem_keys_settled.mpr (.inl hk)
  have hresolved : Recorded (resolved su s) := by
    have hbare : (resolved su s).candidates.bare = (enlisted su s).candidates.bare :=
      resolveGroups_bare su (enlisted su s) (lineup su s)
    intro k hk
    rw [Candidates.keys_eq_of_bare hbare]
    refine hgrow k (h k ?_)
    rw [← hled.selectedKeys, ← hled.failedKeys]
    exact hk
  exact accept_keeps (P := Recorded) (fun _ _ _ _ hc ht => ht.acceptOne hc) hresolved

theorem recorded_of_mem_trace (h : Recorded s) {fuel : Nat} (ht : t ∈ trace su fuel s) :
    Recorded t :=
  trace_keeps (fun _ _ hu huv => hu.settled.same (decisions_of_again huv)) fuel s h t ht

end Recorded

section Evaluate

variable {sc : Scanner} {books : List Book} {o : Options} {vars : Variables} {random : Random}
  {su : Setup} {s : State} {e : Entry}

theorem passes_of_opening (hM : (o.chat.length : Int) < Bounded.max)
    (h : opening? sc books o vars random = some (su, s)) :
    ∃ n u, Passes su s n u ∧ n ≤ passBound su := by
  obtain ⟨fx, log, rfl, rfl⟩ := opening?_eq_some h
  by_cases hrec : (setup sc books o fx).recursive = true
  · have hmin : (setup sc books o fx).widens = false := by
      rw [widens_setup]
      exact decide_eq_false (not_widening_of_recursive hrec)
    obtain ⟨n, u, hn, hbound, _⟩ := passes_of_recursive hrec hmin (.initial _ random log)
    exact ⟨n, u, hn, hbound⟩
  · have hplain : (setup sc books o fx).recursive = false := by simpa using hrec
    obtain ⟨n, u, hn, hbound, _⟩ :=
      passes_of_widening hplain hM (s := .initial (setup sc books o fx) random log) rfl
    exact ⟨n, u, hn, hbound⟩

theorem called_of_match {text : Bytes} (h : (keywordMatch? su e text).isSome = true)
    (htext : text = textFor su s e) : Called su s e := by
  subst htext
  cases hc : e.constant with
  | true => exact .constant hc
  | false => exact .keys ((keywordMatch?_isSome hc).mp h)

/-- The pass that ends a scan leaves nothing to find: what the gates would let through then, and
what is called or answers to its keys on the final text, is a candidate. A recursive scan that is
not cut off has fed all that its last pass accepted. -/
theorem nothing_missed (h : opening? sc books o vars random = some (su, s)) :
    ((o.chat.length : Int) < Bounded.max →
      ∃ t ∈ trace su (passBound su) s, ∃ u, step su t = .stop u) ∧
    ∃ out, (evaluate sc books o vars random).outcome = .ok out ∧
      ∀ t ∈ trace su (passBound su) s, ∀ u, step su t = .stop u →
        (∀ e ∈ triggeredEntries books o.generation, Admits su u e →
          Called su u e ∨ (keywordMatch? su e (textFor su u e)).isSome = true →
          ∃ c ∈ out.candidates, c.key = e.key) ∧
        (su.recursive = true → u.overflowed = false → ¬StepLimited su t →
          freshContent (settled su t) (accept su (resolved su t) (kept su t)).2 = []) := by
  constructor
  · intro hM
    obtain ⟨n, u, hpasses, hbound⟩ := passes_of_opening hM h
    obtain ⟨t, ht, hstop⟩ := hpasses.mem_last hbound
    exact ⟨t, ht, u, hstop⟩
  refine ⟨_, evaluate_of_opening h, fun t ht u hstop => ⟨fun e he hadmits hcall => ?_,
    fun hrec hover hlimit => fresh_of_stop hrec hstop hover hlimit⟩⟩
  have hreach := reach_of_stop hstop
  have hcalled : Called su t e := hreach.called (hcall.elim id fun hm => called_of_match hm rfl)
  have hfound : e.key ∈ (ending su s).candidates.keys := by
    have hend : ending su s = u := run_of_stop ht hstop
    obtain ⟨fx, log, rfl, rfl⟩ := opening?_eq_some h
    rw [hend, (decisions_of_stop hstop).candidates, mem_keys_settled]
    -- A key that the last pass passes over has been decided about before.
    by_cases hdone : e.key ∈ t.selectedKeys ∨ e.key ∈ t.failedKeys
    · have hbegin : Recorded (.initial (setup sc books o fx) random log) := by
        simp [Recorded, State.initial]
      exact .inl (recorded_of_mem_trace hbegin ht e.key hdone)
    · rw [not_or] at hdone
      have hact := activates_iff.mpr ⟨he, hdone.1, hdone.2, hreach.admits hadmits, hcalled⟩
      exact .inr (mem_activatedKeys_iff.mpr ⟨e, hact, rfl⟩)
  exact List.mem_map.mp hfound

theorem nothing_missed_ladder : ∃ su s t u out,
    opening? .standard [.ladder 1] { text := some (lit "x") } [] (.ofList []) = some (su, s) ∧
    (evaluate .standard [.ladder 1] { text := some (lit "x") } [] (.ofList [])).outcome = .ok out ∧
    t ∈ trace su (passBound su) s ∧ step su t = .stop u ∧
    ∃ e ∈ (Book.ladder 1).entries, 0 < e.recursionLevel ∧ Admits su u e ∧ Called su u e ∧
      ∃ c ∈ out.candidates, c.key = e.key := by
  -- At the end the entry is selected; its gates are open all the same.
  have hcheck : (opening? .standard [.ladder 1] { text := some (lit "x") } [] (.ofList [])).any
      (fun p => (Book.ladder 1).entries.any fun e => 0 < e.recursionLevel
        && eligible p.1 { ending p.1 p.2 with selectedKeys := [], failedKeys := [] } e
        && (trigger? p.1 { ending p.1 p.2 with selectedKeys := [], failedKeys := [] } e).isSome)
      = true := by
    decide +kernel
  obtain ⟨⟨su, s⟩, hopen, hany⟩ := (Option.any_eq_true _ _).mp hcheck
  simp only [List.any_eq_true, Bool.and_eq_true, decide_eq_true_eq] at hany
  obtain ⟨e, he, ⟨hlevel, heligible⟩, htrigger⟩ := hany
  have hreach : SameReach (ending su s)
      { ending su s with selectedKeys := [], failedKeys := [] } := ⟨rfl, rfl, rfl, rfl⟩
  have hadmits := hreach.admits (eligible_iff.mp heligible).2.2
  have hcalled := hreach.called (trigger?_isSome.mp htrigger)
  obtain ⟨hstops, out, hout, hfound⟩ := nothing_missed hopen
  obtain ⟨t, ht, u, hstop⟩ := hstops (by decide)
  obtain rfl : ending su s = u := run_of_stop ht hstop
  exact ⟨su, s, t, ending su s, out, hopen, hout, ht, hstop, e, he, hlevel, hadmits, hcalled,
    (hfound t ht _ hstop).1 e he hadmits (.inl hcalled)⟩

end Evaluate

end Lorebook.Scan
