import Lorebook.Proofs.Charging
import Lorebook.Proofs.Records

set_option autoImplicit false

/-!
The arithmetic of a whole evaluation in the signed 64-bit range. All sums are safe but those of
token counts, which are not guarded: these are safe exactly when all that is charged fits the range,
and as long as it does the budget is kept as over the integers.
-/

namespace Lorebook

open Bounded (Within)

namespace Scan

/-- The operations of a scan apart from the sums of token counts. Its passes are followed as far as
the range goes: only a window that begins that far below zero could be widened more often. -/
def scanOperations (su : Setup) (s : State) : List Operation :=
  spanOperations su.clock su.entries
    ++ ((trace su (passBound su) s).filter fun t => (t.passes : Int) < Bounded.max).flatMap
      (passOperations su)
    ++ spanOperations su.clock
      (((ending su s).candidates.filter (·.isSelected)).map (·.entry))

/-- All numbers that an evaluation is given are in the range, and so are all answers of its
estimator. -/
structure Given (sc : Scanner) (books : List Book) (o : Options) : Prop where
  faithful : sc.estimator.Faithful
  tokens : ∀ fx, ∀ e ∈ triggeredEntries books o.generation, ∀ v,
    Form (setup sc books o fx) e v → sc.estimator.value v.content ≤ Bounded.max
  chat : (o.chat.length : Int) ≤ Bounded.max
  clock : ∀ n, o.messageCount = some n → Within n
  depth : ∀ n, o.depth = some n → Within n
  scanDepths : ∀ b ∈ books, ∀ n, b.scanDepth = some n → Within n
  tokenBudgets : ∀ b ∈ books, ∀ n, b.tokenBudget = some n → Within n
  entries : ∀ e ∈ triggeredEntries books o.generation, e.Sized
  keys : ∀ fx, ∀ e ∈ triggeredEntries books o.generation, ∀ v, Form (setup sc books o fx) e v →
    (v.keys.length : Int) + v.secondaryKeys.length ≤ Bounded.max

section Evaluate

variable {sc : Scanner} {books : List Book} {o : Options} {vars : Variables} {random : Random}
  {su : Setup} {s : State}

theorem within_window (hdepth : ∀ n, o.depth = some n → Within n)
    (hbooks : ∀ b ∈ books, ∀ n, b.scanDepth = some n → Within n) :
    ∀ n, o.window books = some n → Within n := by
  intro n hn
  rw [Options.window] at hn
  rcases Option.or_eq_some_iff.mp hn with hn | ⟨_, hn⟩
  · exact hdepth n hn
  · refine List.foldlRecOn (motive := fun d : Option Int => ∀ n, d = some n → Within n) books _
      (by simp) (fun d hd b hb n hn => ?_) n hn
    have hbook {m : Int} (hm : b.scanDepth.filter (0 < ·) = some m) : Within m :=
      hbooks b hb m (Option.filter_eq_some_iff.mp hm).1
    split at hn
    · next m m' hm =>
      cases hn
      split
      · exact hbook hm
      · exact hd m' rfl
    · next m hm =>
      cases hn
      exact hbook hm
    · exact hd n hn

theorem Given.topLevel (h : Given sc books o) (fx : Effects) :
    (setup sc books o fx).topLevel ≤ Bounded.max := by
  unfold Setup.topLevel
  cases hlast : (setup sc books o fx).levels.getLast? with
  | none => decide
  | some n =>
    obtain ⟨e, he, _, rfl⟩ := mem_recursionLevels.mp (List.mem_of_getLast? hlast)
    unfold Entry.recursionLevel
    cases hlevel : e.delayUntilRecursion.filter (0 < ·) with
    | none => decide
    | some n =>
      exact ((h.entries e he).delayUntilRecursion n (Option.filter_eq_some_iff.mp hlevel).1).2

theorem clock_of_opening (h : opening? sc books o vars random = some (su, s)) :
    su.clock = o.messageCount.getD o.chat.length := by
  obtain ⟨-, -, effects, _, hstart, rfl, -⟩ := start_of_opening h
  obtain ⟨hclock, -, hdry, hobj, -⟩ := Effects.state_of_start hstart
  rw [Setup.clock, setup, Effects.check_eq hobj hdry]
  exact hclock

theorem Given.sized (h : Given sc books o) (hsu : opening? sc books o vars random = some (su, s)) :
    su.Sized := by
  have hclock := clock_of_opening hsu
  obtain ⟨fx, _, rfl, _⟩ := opening?_eq_some hsu
  refine ⟨?_, within_window h.depth h.scanDepths, h.chat, h.topLevel fx, h.entries,
    h.keys fx⟩
  rw [hclock]
  cases hcount : o.messageCount with
  | none => exact Bounded.within_of_nonneg (Int.natCast_nonneg _) h.chat
  | some n => exact h.clock n hcount

theorem Given.payable (h : Given sc books o)
    (hsu : opening? sc books o vars random = some (su, s)) : su.Payable := by
  obtain ⟨fx, _, rfl, _⟩ := opening?_eq_some hsu
  exact ⟨h.faithful, h.tokens fx, fun B hB => Int.le_of_lt (budget_pos hB)⟩

theorem Given.safe_scanOperations (h : Given sc books o)
    (hsu : opening? sc books o vars random = some (su, s)) :
    ∀ op ∈ scanOperations su s, op.Safe := by
  have hsized := h.sized hsu
  have hs := coherent_of_opening hsu
  refine List.forall_mem_append.mpr ⟨List.forall_mem_append.mpr ⟨?_, ?_⟩, ?_⟩
  · exact safe_spanOperations hsized.clock hsized.entries
  · intro op hop
    obtain ⟨t, ht, hop⟩ := List.mem_flatMap.mp hop
    obtain ⟨ht, hpasses⟩ := List.mem_filter.mp ht
    have hinitial : s.Counted := by
      obtain ⟨_, _, _, rfl⟩ := opening?_eq_some hsu
      exact ⟨Nat.le_refl _, Nat.le_refl _, Int.le_refl _⟩
    have hcounted : t.Counted :=
      trace_keeps (P := State.Counted) (fun _ _ hu huv => hu.again huv) _ s hinitial t ht
    exact safe_passOperations hsized (hs.of_mem_trace ht) hcounted
      (of_decide_eq_true hpasses) op hop
  · refine safe_spanOperations hsized.clock fun v hv => ?_
    obtain ⟨c, hc, rfl⟩ := List.mem_map.mp hv
    obtain ⟨e, he, _, hform⟩ := (hs.ending.sound c (List.mem_filter.mp hc).1).form
    exact hform.sized (hsized.entries e he)

/-- What is charged in a scan is safe to add up exactly when it fits the range in the end. -/
theorem Given.charging (h : Given sc books o)
    (hsu : opening? sc books o vars random = some (su, s)) :
    Charging 0 (weighings su s) ((ending su s).spent + tokenSum (revisits su s)) := by
  have hpay := h.payable hsu
  have hs := coherent_of_opening hsu
  obtain ⟨fx, log, rfl, rfl⟩ := opening?_eq_some hsu
  have hrun := charging_run hpay (Tally.initial hpay.budget random log) (Int.le_refl 0) hs
    (filing_initial _ random log) (passBound (setup sc books o fx))
  rw [Int.zero_add] at hrun
  exact hrun

theorem exceeds_of_safe {p : State × Candidate} (h : (weighingSum p).Safe) :
    exceeds su p.1 p.2
      = (!p.2.entry.ignoreBudget && su.budget.any (· < p.1.used + p.2.tokens)) := by
  rw [exceeds, Bounded.wrap_of_mem h.1 h.2]

/-- All operations of an evaluation stay in the range but for the sums of token counts, which do
exactly when the total that is charged does; then that total is what is used, and the budget has
been compared with the exact sums. -/
theorem arithmetic_safe {out : Outcome} (h : Given sc books o)
    (hout : (evaluate sc books o vars random).outcome = .ok out) :
    (∀ op ∈ budgetOperations o books, op.Safe) ∧
    ∀ su s, opening? sc books o vars random = some (su, s) →
      let charged := tokenSum out.selected + tokenSum (revisits su s)
      (∀ op ∈ scanOperations su s, op.Safe) ∧
      ((∀ p ∈ weighings su s, (weighingSum p).Safe) ↔ charged ≤ Bounded.max) ∧
      (charged ≤ Bounded.max → out.usedTokens = charged ∧
        ∀ p ∈ weighings su s, exceeds su p.1 p.2
          = (!p.2.entry.ignoreBudget && (o.budget books).any (· < p.1.used + p.2.tokens))) := by
  refine ⟨safe_budgetOperations h.tokenBudgets o, ?_⟩
  intro su s hsu charged
  have hout' := (evaluate_of_opening hsu).symm.trans hout
  have hcharging := h.charging hsu
  have htotal : charged = (ending su s).spent + tokenSum (revisits su s) := by
    cases hout'
    exact congrArg (· + tokenSum (revisits su s)) (tokenSum_selected _)
  have hsafe : (∀ p ∈ weighings su s, (weighingSum p).Safe) ↔ charged ≤ Bounded.max := by
    rw [htotal]
    exact hcharging.fits (by decide)
  refine ⟨h.safe_scanOperations hsu, hsafe, fun hfit => ⟨?_, fun p hp => ?_⟩⟩
  · have hnonneg : 0 ≤ charged := by
      rw [htotal]
      exact hcharging.le
    have hused : out.usedTokens = Bounded.wrap charged := by
      cases hout'
      rw [htotal]
      exact (tally_of_opening hsu).used
    rw [hused, Bounded.wrap_of_mem (Int.le_trans (by decide) hnonneg) hfit]
  · have hbudget : su.budget = o.budget books := by
      obtain ⟨_, _, rfl, _⟩ := opening?_eq_some hsu
      rfl
    rw [exceeds_of_safe (hsafe.mpr hfit p hp), hbudget]

end Evaluate

section Flat

def flatScanner (n : Int) : Scanner := { Scanner.standard with estimator := .function fun _ => n }

def greatestBudget : Options where
  tokenBudget := some Bounded.max

theorem given_flat {n : Int} (hn : n ≤ Bounded.max) :
    Given (flatScanner n) [.constantTrio] greatestBudget := by
  have hentries : triggeredEntries [.constantTrio] greatestBudget.generation
      = Book.constantTrio.entries := rfl
  have hweight : Within 100 := ⟨by decide, by decide⟩
  refine ⟨trivial, fun _ _ _ _ _ => hn, by decide, nofun, nofun, ?_, ?_, ?_, ?_⟩
  · simp [Book.constantTrio]
  · simp [Book.constantTrio]
  · rw [hentries]
    have hplain (uid : Bytes) : Entry.Sized { uid, constant := true, content := lit "abcd" } :=
      ⟨hweight, nofun, nofun, nofun⟩
    simpa only [Book.constantTrio, List.forall_mem_cons] using
      ⟨hplain _, hplain _, hplain _, List.forall_mem_nil _⟩
  · -- There are neither forced activations nor directives that could add keys.
    intro fx e he v hform
    rw [hentries] at he
    have hbare : e.keys = [] ∧ e.secondaryKeys = [] ∧ e.recursiveVariant = e := by
      simp only [Book.constantTrio, List.mem_cons, List.not_mem_nil, or_false] at he
      rcases he with rfl | rfl | rfl <;> exact ⟨rfl, rfl, rfl⟩
    obtain ⟨hkeys, hsecondary, hvariant⟩ := hbare
    cases hform with
    | plain => simp [hkeys, hsecondary, Bounded.max]
    | recursive => simp [hvariant, hkeys, hsecondary, Bounded.max]
    | forced ho => cases ho

theorem arithmetic_safe_flat : ∃ out su s,
    (evaluate (flatScanner 3000000000000000000) [.constantTrio] greatestBudget []
      (.ofList [])).outcome = .ok out ∧
    opening? (flatScanner 3000000000000000000) [.constantTrio] greatestBudget [] (.ofList [])
      = some (su, s) ∧
    (∀ p ∈ weighings su s, (weighingSum p).Safe) ∧ out.usedTokens = 9000000000000000000 := by
  obtain ⟨_, hscan⟩ := @arithmetic_safe _ _ _ [] (.ofList []) _
    (@given_flat 3000000000000000000 (by decide)) rfl
  obtain ⟨_, hsafe, hused⟩ := hscan _ _ rfl
  exact ⟨_, _, _, rfl, rfl, hsafe.mpr (by decide), (hused (by decide)).1⟩

/-- Three counts that each fill the range: the first sum that leaves it comes out as -2, which fits
any budget. -/
theorem not_arithmetic_safe_flat : ¬∀ (sc : Scanner) (books : List Book) (o : Options)
    (vars : Variables) (random : Random) (out : Outcome) (su : Setup) (s : State),
    Given sc books o → (evaluate sc books o vars random).outcome = .ok out →
      opening? sc books o vars random = some (su, s) →
      ∀ p ∈ weighings su s, (weighingSum p).Safe := by
  intro h
  have hflat := h (flatScanner Bounded.max) [.constantTrio] greatestBudget [] (.ofList []) _ _ _
    (given_flat (Int.le_refl _)) rfl rfl
  revert hflat
  decide +kernel

end Flat
end Scan
end Lorebook
