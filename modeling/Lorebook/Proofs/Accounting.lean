import Lorebook.Proofs.Coherence

set_option autoImplicit false

/-!
What the counter of a scan counts. A candidate is charged when it is selected. One that acceptance
comes to again while it is selected, because two entries share its key, is charged again or dropped
without a refund; apart from that the counter is the sum over the selected candidates.
-/

namespace Lorebook

theorem Bounded.wrap_add_wrap (a b : Int) : wrap (wrap a + b) = wrap (a + b) := Int.bmod_add_bmod

namespace Candidate

def cost (c : Candidate) : Int := if c.isSelected then c.tokens else 0

/-- What a candidate takes from the budget that it has to keep to. -/
def claim (c : Candidate) : Int := if c.entry.ignoreBudget then 0 else c.cost

variable {c : Candidate}

theorem cost_of_selected (h : c.isSelected = true) : c.cost = c.tokens := by simp [cost, h]

theorem cost_of_not_selected (h : c.isSelected = false) : c.cost = 0 := by simp [cost, h]

theorem claim_of_not_selected (h : c.isSelected = false) : c.claim = 0 := by
  simp [claim, cost_of_not_selected h]

@[simp] theorem cost_selected (c : Candidate) : { c with fate := .selected }.cost = c.tokens := by
  simp [cost, isSelected]

@[simp] theorem cost_dropped (c : Candidate) (r : DropReason) :
    { c with fate := .dropped r }.cost = 0 := by
  simp [cost, isSelected]

@[simp] theorem claim_dropped (c : Candidate) (r : DropReason) :
    { c with fate := .dropped r }.claim = 0 := by
  simp [claim, cost, isSelected]

theorem cost_nonneg (h : 0 ≤ c.tokens) : 0 ≤ c.cost := by
  unfold cost
  split <;> omega

theorem claim_nonneg (h : 0 ≤ c.tokens) : 0 ≤ c.claim := by
  have hc := cost_nonneg h
  unfold claim
  split <;> omega

theorem claim_le_cost (h : 0 ≤ c.tokens) : c.claim ≤ c.cost := by
  have hc := cost_nonneg h
  unfold claim
  split <;> omega

end Candidate

namespace Candidates

theorem total_setFate (w : Candidate → Int) {cs : Candidates} {k : Bytes} {c : Candidate}
    (hn : cs.keys.Nodup) (hc : cs.find? k = some c) (fate : Fate) :
    total w (cs.setFate k fate) = total w cs - w c + w { c with fate } :=
  total_update (f := fun c => { c with fate }) w hn hc

end Candidates

namespace Scan

/-- The candidates that acceptance comes to although they are selected already. -/
def revisited (su : Setup) : State → List Bytes → Candidates
  | _, [] => []
  | s, k :: ks =>
    match s.candidates.find? k with
    | none => revisited su s ks
    | some c =>
      if c.isSelected then c :: revisited su (acceptOne su s c).1 ks
      else revisited su (acceptOne su s c).1 ks

def revisits (su : Setup) (s : State) : Candidates :=
  (trace su (passBound su) s).flatMap fun t => revisited su (resolved su t) (kept su t)

def tokenSum (cs : Candidates) : Int := cs.total (·.tokens)

@[simp] theorem tokenSum_nil : tokenSum [] = 0 := rfl

@[simp] theorem tokenSum_cons (c : Candidate) (cs : Candidates) :
    tokenSum (c :: cs) = c.tokens + tokenSum cs := rfl

@[simp] theorem tokenSum_append (as bs : Candidates) :
    tokenSum (as ++ bs) = tokenSum as + tokenSum bs := Candidates.total_append _ as bs

theorem tokenSum_nonneg {cs : Candidates} (h : ∀ c ∈ cs, 0 ≤ c.tokens) : 0 ≤ tokenSum cs :=
  Candidates.total_nonneg h

theorem tokenSum_eq_zero_iff {cs : Candidates} (h : ∀ c ∈ cs, 0 ≤ c.tokens) :
    tokenSum cs = 0 ↔ ∀ c ∈ cs, c.tokens = 0 := Candidates.total_eq_zero_iff h

def State.spent (s : State) : Int := s.candidates.total Candidate.cost

section Weights

variable {su : Setup} {s : State} {w : Candidate → Int}

theorem total_enlist (hw : ∀ c, c.isSelected = false → w c = 0) (hs : Coherent su s) {e : Entry}
    (he : e.key ∉ s.selectedKeys) (k : PassKind) (tr : Trigger) :
    (s.enlist k e tr).candidates.total w = s.candidates.total w := by
  obtain ⟨n, est, _, ⟨_, heq⟩ | ⟨_, new, hnew, heq⟩⟩ := s.enlist_cases k e tr
  · rw [heq]
    apply Candidates.total_map
    intro c hc
    split
    · next hk =>
      have hsel : c.isSelected = false := hs.not_selected hc (hk ▸ he)
      rw [hw c hsel, hw _ (by rw [tr.refresh_isSelected, hsel])]
    · rfl
  · have hsel : new.isSelected = false := by simp [Candidate.isSelected, hnew.fate]
    rw [heq]
    simp [Candidates.total, hw new hsel]

theorem total_enlisted (hw : ∀ c, c.isSelected = false → w c = 0) (hs : Coherent su s) :
    (enlisted su s).candidates.total w = s.candidates.total w := by
  have hkeeps := hs.enlisted_keeps (P := fun t => t.candidates.total w = s.candidates.total w)
  refine (hkeeps ?_ rfl ?_).2
  · intro t u htu ht
    rw [htu.candidates, ht]
  · intro t e tr he ht htotal
    rw [total_enlist hw ht he, htotal]

theorem total_resolved (hw : ∀ c, c.isSelected = false → w c = 0) (hs : Coherent su s) :
    (resolved su s).candidates.total w = s.candidates.total w := by
  obtain ⟨reason, hcs⟩ := resolveGroups_dropping su (enlisted su s) (lineup su s)
  have hres : (resolved su s).candidates = _ := hcs
  rw [hres, ← total_enlisted hw hs]
  apply Candidates.total_map
  intro c hc
  split
  · next hk =>
    -- Only what this pass activates is dropped, and that is not selected.
    have hfree : c.key ∉ (enlisted su s).selectedKeys := by
      rw [(enlisted_ledger su s).selectedKeys]
      exact not_mem_selectedKeys_of_lineup ((drawnFrom_finalDraw su _ _).mem c.key hk)
    rw [hw c (hs.enlisted.not_selected hc hfree), hw _ (by simp [Candidate.isSelected])]
  · rfl

end Weights

/-- The counter `used` when `extra` tokens have been charged besides those of the selected
candidates. As long as all that has been charged fits the range, candidates that have to keep to a
budget have kept to it. -/
structure Tally (su : Setup) (s : State) (extra : Int) : Prop where
  used : s.used = Bounded.wrap (s.spent + extra)
  cap : ∀ B, su.budget = some B → s.spent + extra ≤ Bounded.max →
    s.candidates.total Candidate.claim ≤ B

namespace Tally

variable {su : Setup} {s : State} {a : Int}

theorem initial (hB : ∀ B, su.budget = some B → 0 ≤ B) (random : Random) (log : List Bytes) :
    Tally su (.initial su random log) 0 := by
  refine ⟨rfl, ?_⟩
  intro B h _
  exact hB B h

theorem drop {t : State} {k : Bytes} {c : Candidate} {r : DropReason} (h : Tally su s a)
    (hs : Coherent su s) (hc : s.candidates.find? k = some c)
    (ht : t.candidates = s.candidates.setFate c.key (.dropped r)) (hu : t.used = s.used) :
    Tally su t (a + c.cost) := by
  have hck : s.candidates.find? c.key = some c := by rw [Candidates.key_of_find? hc, hc]
  have htokens := (hs.sound c (Candidates.mem_of_find? hc)).tokens
  have hspent : t.spent = s.spent - c.cost := by
    simp [State.spent, ht, Candidates.total_setFate _ hs.nodup hck]
  have hclaim : t.candidates.total Candidate.claim
      = s.candidates.total Candidate.claim - c.claim := by
    simp [ht, Candidates.total_setFate _ hs.nodup hck]
  have hsum : t.spent + (a + c.cost) = s.spent + a := by omega
  refine ⟨?_, ?_⟩
  · rw [hu, hsum, h.used]
  · intro B hB hfit
    rw [hsum] at hfit
    have hcap := h.cap B hB hfit
    have hc := Candidate.claim_nonneg htokens
    omega

theorem select {k : Bytes} {c : Candidate} (h : Tally su s a) (ha : 0 ≤ a) (hs : Coherent su s)
    (hc : s.candidates.find? k = some c) (r : Random) (hx : exceeds su s c = false) :
    Tally su (State.select { s with random := r } c) (a + c.cost) := by
  generalize ht : State.select { s with random := r } c = t
  have hck : s.candidates.find? c.key = some c := by rw [Candidates.key_of_find? hc, hc]
  have htokens := (hs.sound c (Candidates.mem_of_find? hc)).tokens
  have hcost := Candidate.cost_nonneg htokens
  have hcs : t.candidates = s.candidates.setFate c.key .selected := by rw [← ht]; rfl
  have hused : t.used = Bounded.wrap (s.used + c.tokens) := by rw [← ht]; rfl
  have hspent : t.spent = s.spent - c.cost + c.tokens := by
    simp [State.spent, hcs, Candidates.total_setFate _ hs.nodup hck]
  have hclaim : t.candidates.total Candidate.claim = s.candidates.total Candidate.claim - c.claim
      + Candidate.claim { c with fate := .selected } := by
    rw [hcs, Candidates.total_setFate _ hs.nodup hck]
  have hsum : t.spent + (a + c.cost) = s.spent + a + c.tokens := by omega
  have hwrap : t.used = Bounded.wrap (t.spent + (a + c.cost)) := by
    rw [hused, h.used, Bounded.wrap_add_wrap, hsum]
  refine ⟨hwrap, ?_⟩
  intro B hB hfit
  cases hi : c.entry.ignoreBudget with
  | true =>
    have hcap := h.cap B hB (by omega)
    have hold : c.claim = 0 := by simp [Candidate.claim, hi]
    have hnew : Candidate.claim { c with fate := .selected } = 0 := by simp [Candidate.claim, hi]
    omega
  | false =>
    -- The counter, which has just been compared with the budget, is at least what is claimed.
    have hspent_nonneg : 0 ≤ s.spent :=
      Candidates.total_nonneg fun d hd => Candidate.cost_nonneg (hs.sound d hd).tokens
    have hexact : Bounded.wrap (t.spent + (a + c.cost)) = t.spent + (a + c.cost) :=
      Bounded.wrap_of_mem (by unfold Bounded.min; omega) hfit
    have hle : t.used ≤ B := by
      simpa [exceeds, hi, hB, ← hused] using hx
    have hclaims : s.candidates.total Candidate.claim ≤ s.spent :=
      Candidates.total_le fun d hd => Candidate.claim_le_cost (hs.sound d hd).tokens
    have hold : c.claim = c.cost := by simp [Candidate.claim, hi]
    have hnew : Candidate.claim { c with fate := .selected } = c.tokens := by
      simp [Candidate.claim, hi]
    omega

theorem acceptOne {k : Bytes} {c : Candidate} (h : Tally su s a) (ha : 0 ≤ a) (hs : Coherent su s)
    (hc : s.candidates.find? k = some c) : Tally su (acceptOne su s c).1 (a + c.cost) := by
  apply acceptOne_elim (P := fun r => Tally su r.1 (a + c.cost))
  intro r hr
  cases hr with
  | late _ _ => exact h.drop hs hc rfl rfl
  | failed r _ => exact h.drop hs hc rfl rfl
  | overrun r _ _ => exact h.drop hs hc rfl rfl
  | taken r _ hx => exact h.select ha hs hc r hx

end Tally

section Revisits

variable {su : Setup} {s : State} {a : Int}

theorem revisited_cons (su : Setup) (s : State) (k : Bytes) (ks : List Bytes) :
    revisited su s (k :: ks) =
      match s.candidates.find? k with
      | none => revisited su s ks
      | some c =>
        if c.isSelected then c :: revisited su (acceptOne su s c).1 ks
        else revisited su (acceptOne su s c).1 ks := rfl

theorem revisited_tokens (hs : Coherent su s) (ks : List Bytes) :
    ∀ c ∈ revisited su s ks, 0 ≤ c.tokens := by
  induction ks generalizing s with
  | nil => simp [revisited]
  | cons k ks ih =>
    rw [revisited_cons]
    cases hc : s.candidates.find? k with
    | none => exact ih hs
    | some c =>
      have hrest := ih (hs.acceptOne hc)
      dsimp only
      split
      · intro d hd
        rcases List.mem_cons.mp hd with rfl | hd
        · exact (hs.sound d (Candidates.mem_of_find? hc)).tokens
        · exact hrest d hd
      · exact hrest

theorem Tally.accept (h : Tally su s a) (ha : 0 ≤ a) (hs : Coherent su s) (ks : List Bytes) :
    Tally su (accept su s ks).1 (a + tokenSum (revisited su s ks)) := by
  induction ks generalizing s a with
  | nil => simpa [Scan.accept, revisited] using h
  | cons k ks ih =>
    rw [accept_cons, revisited_cons]
    cases hc : s.candidates.find? k with
    | none => exact ih h ha hs
    | some c =>
      have htokens := (hs.sound c (Candidates.mem_of_find? hc)).tokens
      have hone := h.acceptOne ha hs hc
      have hcost := Candidate.cost_nonneg htokens
      have hrest := ih hone (by omega) (hs.acceptOne hc)
      cases hsel : c.isSelected with
      | true =>
        rw [Candidate.cost_of_selected hsel, Int.add_assoc] at hrest
        simpa [hsel] using hrest
      | false =>
        rw [Candidate.cost_of_not_selected hsel, Int.add_zero] at hrest
        simpa [hsel] using hrest

theorem spent_resolved (hs : Coherent su s) : (resolved su s).spent = s.spent :=
  total_resolved (fun _ => Candidate.cost_of_not_selected) hs

theorem tally_resolved (h : Tally su s a) (hs : Coherent su s) : Tally su (resolved su s) a := by
  have hused : (resolved su s).used = s.used := (enlisted_ledger su s).used
  have hspent := spent_resolved hs
  have hclaim : (resolved su s).candidates.total Candidate.claim
      = s.candidates.total Candidate.claim :=
    total_resolved (fun _ => Candidate.claim_of_not_selected) hs
  refine ⟨?_, ?_⟩
  · rw [hused, hspent, h.used]
  · rw [hspent, hclaim]
    exact h.cap

theorem Tally.settled (h : Tally su s a) (ha : 0 ≤ a) (hs : Coherent su s) :
    Tally su (settled su s) (a + tokenSum (revisited su (resolved su s) (kept su s))) :=
  (tally_resolved h hs).accept ha hs.resolved _

theorem Tally.same {t : State} (h : Tally su s a) (hst : SameDecisions s t) : Tally su t a := by
  have hspent : t.spent = s.spent := by rw [State.spent, State.spent, hst.candidates]
  refine ⟨?_, ?_⟩
  · rw [hst.used, hspent, h.used]
  · rw [hspent, hst.candidates]
    exact h.cap

theorem Tally.run (h : Tally su s a) (ha : 0 ≤ a) (hs : Coherent su s) (fuel : Nat) :
    Tally su (run su fuel s) (a + tokenSum ((trace su fuel s).flatMap fun t =>
      revisited su (resolved su t) (kept su t))) := by
  induction fuel generalizing s a with
  | zero => simpa [Scan.run, trace] using h
  | succ fuel ih =>
    have hnonneg := tokenSum_nonneg (revisited_tokens hs.resolved (kept su s))
    have hsettled := h.settled ha hs
    simp only [Scan.run, trace, List.flatMap_cons, tokenSum_append]
    cases hst : step su s with
    | stop t =>
      simpa using hsettled.same (decisions_of_stop hst)
    | again t =>
      have hrest := ih (hsettled.same (decisions_of_again hst)) (by omega) (hs.again hst)
      rw [← Int.add_assoc]
      exact hrest

theorem revisits_tokens (hs : Coherent su s) : ∀ c ∈ revisits su s, 0 ≤ c.tokens := by
  intro c hc
  obtain ⟨t, ht, hct⟩ := List.mem_flatMap.mp hc
  exact revisited_tokens (hs.of_mem_trace ht).resolved _ c hct

theorem revisited_eq_nil {ks : List Bytes} (hn : ks.Nodup)
    (hfree : ∀ k ∈ ks, ∀ c, s.candidates.find? k = some c → c.isSelected = false) :
    revisited su s ks = [] := by
  induction ks generalizing s with
  | nil => rfl
  | cons k ks ih =>
    obtain ⟨hk, hn⟩ := List.nodup_cons.mp hn
    rw [revisited_cons]
    cases hc : s.candidates.find? k with
    | none => exact ih hn fun x hx => hfree x (List.mem_cons_of_mem k hx)
    | some c =>
      have hsel := hfree k List.mem_cons_self c hc
      simp only [hsel, Bool.false_eq_true, if_false]
      apply ih hn
      intro x hx d hd
      have hne : x ≠ c.key := by
        rw [Candidates.key_of_find? hc]
        rintro rfl
        exact hk hx
      rw [find?_acceptOne_of_ne hne] at hd
      exact hfree x (List.mem_cons_of_mem k hx) d hd

theorem revisits_eq_nil (hs : Coherent su s)
    (hn : ((su.entries.filter (·.enabled)).map (·.key)).Nodup) : revisits su s = [] := by
  rw [revisits, List.flatMap_eq_nil_iff]
  intro t ht
  have htc := hs.of_mem_trace ht
  apply revisited_eq_nil (nodup_kept ((activatedKeys_sublist su t).nodup hn))
  intro k hk c hc
  have hkey := Candidates.key_of_find? hc
  have hled := (enlisted_ledger su t).selectedKeys
  apply htc.resolved.not_selected (Candidates.mem_of_find? hc)
  have hsame : (resolved su t).selectedKeys = t.selectedKeys := hled
  rw [hkey, hsame]
  exact not_mem_selectedKeys_of_lineup (mem_resolveGroups.mp hk).1

end Revisits
section Evaluate

variable {sc : Scanner} {books : List Book} {o : Options} {vars : Variables} {random : Random}

theorem tokenSum_selected (out : Outcome) :
    tokenSum out.selected = out.candidates.total Candidate.cost :=
  Candidates.total_filter (·.isSelected) (·.tokens) out.candidates

theorem budget_pos {B : Int} (h : o.budget books = some B) : 0 < B :=
  of_decide_eq_true (Option.filter_eq_some_iff.mp h).2

theorem tally_of_opening {su : Setup} {s : State}
    (h : opening? sc books o vars random = some (su, s)) :
    Tally su (ending su s) (tokenSum (revisits su s)) := by
  have hs := coherent_of_opening h
  obtain ⟨effects, log, rfl, rfl⟩ := opening?_eq_some h
  have hB : ∀ B, (setup sc books o effects).budget = some B → 0 ≤ B :=
    fun B hB => Int.le_of_lt (budget_pos hB)
  have hrun := (Tally.initial hB random log).run (Int.le_refl 0) hs
    (passBound (setup sc books o effects))
  rw [Int.zero_add] at hrun
  exact hrun

def revisitsOf (sc : Scanner) (books : List Book) (o : Options) (vars : Variables)
    (random : Random) : Candidates :=
  match opening? sc books o vars random with
  | none => []
  | some (su, s) => revisits su s

/-- The tokens used are those of the selected candidates and, once more, those of the candidates
that are met again. There are none of these if all enabled entries have keys of their own. -/
theorem usedTokens_eq {out : Outcome} (h : (evaluate sc books o vars random).outcome = .ok out) :
    let spent := tokenSum out.selected
    let again := revisitsOf sc books o vars random
    out.usedTokens = Bounded.wrap (spent + tokenSum again) ∧
      (spent + tokenSum again ≤ Bounded.max →
        (out.usedTokens = spent ↔ ∀ c ∈ again, c.tokens = 0)) ∧
      ((((triggeredEntries books o.generation).filter (·.enabled)).map (·.key)).Nodup →
        again = []) := by
  intro spent again
  obtain ⟨hnone, rfl⟩ | ⟨su, s, hsome, rfl⟩ := evaluate_cases h
  · have hagain : again = [] := by simp [again, revisitsOf, hnone]
    have hspent : spent = 0 := rfl
    rw [hagain, hspent]
    exact ⟨rfl, fun _ => ⟨fun _ => by simp, fun _ => rfl⟩, fun _ => rfl⟩
  have hagain : again = revisits su s := by simp [again, revisitsOf, hsome]
  have hs := coherent_of_opening hsome
  have htally := tally_of_opening hsome
  have hspent : spent = (ending su s).spent := tokenSum_selected _
  have hused : (ending su s).used = Bounded.wrap (spent + tokenSum again) := by
    rw [hspent, hagain]
    exact htally.used
  refine ⟨hused, fun hfit => ?_, fun hn => ?_⟩
  · have hspent_nonneg : 0 ≤ spent := by
      rw [hspent]
      exact Candidates.total_nonneg fun c hc =>
        Candidate.cost_nonneg (hs.ending.sound c hc).tokens
    have htokens : ∀ c ∈ again, 0 ≤ c.tokens := by
      rw [hagain]
      exact revisits_tokens hs
    have hnonneg := tokenSum_nonneg htokens
    rw [Bounded.wrap_of_mem (by unfold Bounded.min; omega) hfit] at hused
    rw [← tokenSum_eq_zero_iff htokens]
    have hout : (outcome books o (ending su s).used (ending su s).candidates).usedTokens
        = spent + tokenSum again := hused
    omega
  · obtain ⟨_, _, rfl, rfl⟩ := opening?_eq_some hsome
    rw [hagain]
    exact revisits_eq_nil hs hn

def singleBook : Book where
  name := lit "b"
  entries := [{ uid := lit "1", bookName := lit "b", constant := true, content := lit "abcd" }]

/-- Given twice, the book has one candidate, which is charged twice. -/
theorem usedTokens_eq_singleBook_twice : ∃ out,
    (evaluate .standard [singleBook, singleBook] {} [] (.ofList [])).outcome = .ok out ∧
      out.usedTokens = 2 ∧ tokenSum out.selected = 1 ∧
      out.usedTokens = Bounded.wrap (tokenSum out.selected
        + tokenSum (revisitsOf .standard [singleBook, singleBook] {} [] (.ofList []))) :=
  ⟨_, rfl, rfl, rfl, (usedTokens_eq rfl).1⟩

theorem usedTokens_not_exact : ¬∀ (books : List Book) (o : Options) (vars : Variables)
    (random : Random) (out : Outcome),
    (evaluate .standard books o vars random).outcome = .ok out →
      out.usedTokens = tokenSum out.selected := by
  intro h
  have htwice := h [singleBook, singleBook] {} [] (.ofList []) _ rfl
  revert htwice
  decide

end Evaluate
end Scan
end Lorebook
