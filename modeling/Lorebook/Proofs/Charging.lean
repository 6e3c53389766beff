import Lorebook.Proofs.Accounting
import Lorebook.Proofs.Indexing
import Lorebook.Proofs.Operations

set_option autoImplicit false

/-!
The sums of token counts. Each candidate that acceptance weighs is added to what has been used; the
total never goes down, so that all sums stay in the range exactly when the last total does.
-/

namespace Lorebook

open Bounded (Within)

/-- The sum of two numbers of the range that leaves it at the top comes out below zero. -/
theorem Bounded.wrap_of_overflow {n : Int} (hlow : max < n) (hhigh : n ≤ max + max) :
    wrap n < 0 := by
  have hbmod : wrap n = n - 18446744073709551616 := by
    unfold wrap
    unfold max at hlow hhigh
    rw [← Int.sub_bmod_right]
    exact Int.bmod_eq_of_le (by omega) (by omega)
  unfold max at hhigh
  omega

theorem Candidates.tokens_le_of_bare {cs ds : Candidates} {m : Int} (h : ds.bare = cs.bare)
    (hmax : ∀ c ∈ cs, c.tokens ≤ m) : ∀ d ∈ ds, d.tokens ≤ m := by
  intro d hd
  obtain ⟨c, hc, hbare⟩ := exists_of_bare h hd
  have htokens : c.bare.tokens = d.bare.tokens := by rw [hbare]
  exact Int.le_trans (Int.le_of_eq htokens.symm) (hmax c hc)

namespace Scan

section Weighing

/-- Whether acceptance comes to the tokens of a candidate. -/
def weighs (su : Setup) (s : State) (c : Candidate) : Bool :=
  !(s.overflowed && !c.entry.ignoreBudget) && (roll su c.entry s.random).1

/-- The candidates of a lineup whose tokens are added to those used, each with the state then. -/
def weighed (su : Setup) : State → List Bytes → List (State × Candidate)
  | _, [] => []
  | s, k :: ks =>
    match s.candidates.find? k with
    | none => weighed su s ks
    | some c => (if weighs su s c then [(s, c)] else []) ++ weighed su (acceptOne su s c).1 ks

def weighings (su : Setup) (s : State) : List (State × Candidate) :=
  (trace su (passBound su) s).flatMap fun t => weighed su (resolved su t) (kept su t)

def weighingSum (p : State × Candidate) : Operation := .sum p.1.used p.2.tokens

variable {su : Setup} {s : State} {c : Candidate}

/-- A candidate that is weighed is selected unless it exceeds the budget; any other is dropped. -/
inductive Weighing (su : Setup) (s : State) (c : Candidate) : State × Bool → Prop where
  | passedOver (t : State) (r : DropReason) : weighs su s c = false →
      t.candidates = s.candidates.setFate c.key (.dropped r) → Weighing su s c (t, false)
  | tooHeavy (t : State) (r : DropReason) : weighs su s c = true → exceeds su s c = true →
      t.candidates = s.candidates.setFate c.key (.dropped r) → Weighing su s c (t, false)
  | taken (t : State) : weighs su s c = true → exceeds su s c = false →
      t.candidates = s.candidates.setFate c.key .selected → Weighing su s c (t, true)

theorem weighing_acceptOne (su : Setup) (s : State) (c : Candidate) :
    Weighing su s c (acceptOne su s c) := by
  unfold acceptOne
  split
  · next h => exact .passedOver _ _ (by simp [weighs, h]) rfl
  next h =>
  dsimp only
  split
  · next hroll =>
    rw [Bool.not_eq_true'] at hroll
    exact .passedOver _ _ (by simp [weighs, hroll]) rfl
  next hroll =>
  rw [Bool.not_eq_true, Bool.not_eq_false'] at hroll
  have hw : weighs su s c = true := by
    rw [Bool.not_eq_true] at h
    simp [weighs, hroll, h]
  have hx : exceeds su { s with random := (roll su c.entry s.random).2 } c = exceeds su s c := rfl
  rw [hx]
  split
  · next he => exact .tooHeavy _ _ hw he rfl
  · next he => exact .taken _ hw (by simpa using he) rfl

end Weighing

/-- The total goes from `m` to `n` while some candidates are weighed, and as long as it has been in
the range all their sums are in the range exactly when it stays there. -/
structure Charging (m : Int) (ps : List (State × Candidate)) (n : Int) : Prop where
  le : m ≤ n
  fits : m ≤ Bounded.max → ((∀ p ∈ ps, (weighingSum p).Safe) ↔ n ≤ Bounded.max)

namespace Charging

variable {m n r : Int} {ps qs : List (State × Candidate)}

theorem refl (m : Int) : Charging m [] m :=
  ⟨Int.le_refl m, fun h => ⟨fun _ => h, fun _ => by simp⟩⟩

theorem trans (h : Charging m ps n) (h' : Charging n qs r) : Charging m (ps ++ qs) r := by
  refine ⟨Int.le_trans h.le h'.le, fun hm => ?_⟩
  rw [List.forall_mem_append, h.fits hm]
  constructor
  · rintro ⟨hn, hqs⟩
    exact (h'.fits hn).mp hqs
  · intro hr
    have hn := Int.le_trans h'.le hr
    exact ⟨hn, (h'.fits hn).mpr hr⟩

end Charging

section Charges

variable {su : Setup} {s : State} {c : Candidate} {k : Bytes} {a : Int}

theorem spent_of_setFate {t : State} {fate : Fate} (hs : Coherent su s)
    (hc : s.candidates.find? k = some c) (ht : t.candidates = s.candidates.setFate c.key fate) :
    t.spent + c.cost = s.spent + Candidate.cost { c with fate } := by
  have hck : s.candidates.find? c.key = some c := by rw [Candidates.key_of_find? hc, hc]
  have htotal := Candidates.total_setFate Candidate.cost hs.nodup hck fate
  rw [← ht] at htotal
  unfold State.spent
  omega

theorem charging_acceptOne (h : Tally su s a) (ha : 0 ≤ a) (hs : Coherent su s)
    (hB : ∀ B, su.budget = some B → 0 ≤ B) (hc : s.candidates.find? k = some c)
    (hmax : c.tokens ≤ Bounded.max) :
    Charging (s.spent + a) (if weighs su s c then [(s, c)] else [])
      ((acceptOne su s c).1.spent + (a + c.cost)) := by
  have htokens := (hs.sound c (Candidates.mem_of_find? hc)).tokens
  have hspent : 0 ≤ s.spent :=
    Candidates.total_nonneg fun d hd => Candidate.cost_nonneg (hs.sound d hd).tokens
  have hused (hfit : s.spent + a ≤ Bounded.max) : s.used = s.spent + a := by
    rw [h.used, Bounded.wrap_of_mem (Int.le_trans (by decide) (Int.add_nonneg hspent ha)) hfit]
  have hdrop {t : State} {r : DropReason}
      (ht : t.candidates = s.candidates.setFate c.key (.dropped r)) :
      t.spent + (a + c.cost) = s.spent + a := by
    have hsum := spent_of_setFate hs hc ht
    rw [Candidate.cost_dropped] at hsum
    omega
  have hsum (hfit : s.spent + a ≤ Bounded.max) :
      (∀ p ∈ [(s, c)], (weighingSum p).Safe) ↔ Within (s.spent + a + c.tokens) := by
    rw [List.forall_mem_singleton, weighingSum, Operation.Safe, hused hfit]
  have hone : Weighing su s c (acceptOne su s c) := weighing_acceptOne su s c
  generalize acceptOne su s c = r at hone ⊢
  cases hone with
  | passedOver t r hw ht =>
    rw [hw, hdrop ht]
    exact .refl _
  | tooHeavy t r hw hx ht =>
    rw [if_pos hw, hdrop ht]
    refine ⟨Int.le_refl _, fun hfit => ⟨fun _ => hfit, fun _ => (hsum hfit).mpr ?_⟩⟩
    -- A sum beyond the range comes out below zero, where it exceeds no budget.
    simp only [exceeds, Bool.and_eq_true, Option.any_eq_true, decide_eq_true_eq, hused hfit] at hx
    obtain ⟨_, B, hBudget, hlt⟩ := hx
    have hpos := hB B hBudget
    refine Bounded.within_of_nonneg (by omega) (Int.not_lt.mp fun hover => ?_)
    have hwrapped := Bounded.wrap_of_overflow hover (Int.add_le_add hfit hmax)
    omega
  | taken t hw hx ht =>
    have hcost := spent_of_setFate hs hc ht
    rw [Candidate.cost_selected] at hcost
    have htotal : t.spent + (a + c.cost) = s.spent + a + c.tokens := by omega
    rw [if_pos hw, htotal]
    refine ⟨by omega, fun hfit => ?_⟩
    rw [hsum hfit]
    exact ⟨fun hsafe => hsafe.2, Bounded.within_of_nonneg (by omega)⟩

theorem charging_accept (h : Tally su s a) (ha : 0 ≤ a) (hs : Coherent su s)
    (hB : ∀ B, su.budget = some B → 0 ≤ B) (hmax : ∀ c ∈ s.candidates, c.tokens ≤ Bounded.max)
    (ks : List Bytes) :
    Charging (s.spent + a) (weighed su s ks)
      ((accept su s ks).1.spent + (a + tokenSum (revisited su s ks))) := by
  induction ks generalizing s a with
  | nil => simpa [accept, weighed, revisited] using Charging.refl _
  | cons k ks ih =>
    rw [accept_cons, revisited_cons, weighed]
    cases hc : s.candidates.find? k with
    | none => exact ih h ha hs hmax
    | some c =>
      have hmem := Candidates.mem_of_find? hc
      have hcost := Candidate.cost_nonneg (hs.sound c hmem).tokens
      have hone := charging_acceptOne h ha hs hB hc (hmax c hmem)
      have hrest := ih (h.acceptOne ha hs hc) (by omega) (hs.acceptOne hc)
        (Candidates.tokens_le_of_bare (acceptOne_bare su s c) hmax)
      have hboth := hone.trans hrest
      cases hsel : c.isSelected with
      | true =>
        rw [Candidate.cost_of_selected hsel, Int.add_assoc] at hboth
        simpa [hsel] using hboth
      | false =>
        rw [Candidate.cost_of_not_selected hsel, Int.add_zero] at hboth
        simpa [hsel] using hboth

end Charges

section Run

variable {su : Setup} {s : State} {a : Int}

/-- The estimator computes a function that stays in the range for whatever an entry may become. -/
structure Setup.Payable (su : Setup) : Prop where
  faithful : su.scanner.estimator.Faithful
  tokens : ∀ e ∈ su.entries, ∀ v, Form su e v →
    su.scanner.estimator.value v.content ≤ Bounded.max
  budget : ∀ B, su.budget = some B → 0 ≤ B

theorem Setup.Payable.tokens_resolved (h : su.Payable) (hs : Coherent su s)
    (hf : Filing su.scanner.estimator s) :
    ∀ c ∈ (resolved su s).candidates, c.tokens ≤ Bounded.max := by
  intro c hc
  have hfiled : (resolved su s).candidates.Filed su.scanner.estimator :=
    hf.enlisted.of_bare (resolveGroups_bare su _ _)
  obtain ⟨e, he, _, hform⟩ := (hs.resolved.sound c hc).form
  rw [(hfiled.each c hc).tokens h.faithful, Estimator.tokens]
  split
  · decide
  · exact h.tokens e he c.entry hform

theorem SameDecisions.spent {t : State} (h : SameDecisions s t) : t.spent = s.spent := by
  rw [State.spent, State.spent, h.candidates]

theorem charging_settled (hsu : su.Payable) (h : Tally su s a) (ha : 0 ≤ a) (hs : Coherent su s)
    (hf : Filing su.scanner.estimator s) :
    Charging (s.spent + a) (weighed su (resolved su s) (kept su s))
      ((settled su s).spent + (a + tokenSum (revisited su (resolved su s) (kept su s)))) := by
  rw [← spent_resolved hs]
  exact charging_accept (tally_resolved h hs) ha hs.resolved hsu.budget
    (hsu.tokens_resolved hs hf) _

theorem charging_run (hsu : su.Payable) (h : Tally su s a) (ha : 0 ≤ a) (hs : Coherent su s)
    (hf : Filing su.scanner.estimator s) (fuel : Nat) :
    Charging (s.spent + a)
      ((trace su fuel s).flatMap fun t => weighed su (resolved su t) (kept su t))
      ((run su fuel s).spent + (a + tokenSum ((trace su fuel s).flatMap fun t =>
        revisited su (resolved su t) (kept su t)))) := by
  induction fuel generalizing s a with
  | zero => simpa [run, trace] using Charging.refl _
  | succ fuel ih =>
    have hnonneg := tokenSum_nonneg (revisited_tokens hs.resolved (kept su s))
    have hpass := charging_settled hsu h ha hs hf
    simp only [run, trace, List.flatMap_cons, tokenSum_append]
    cases hst : step su s with
    | stop t =>
      rw [← (decisions_of_stop hst).spent] at hpass
      simpa using hpass
    | again t =>
      have htally := (h.settled ha hs).same (decisions_of_again hst)
      rw [← (decisions_of_again hst).spent] at hpass
      have hrest := ih htally (by omega) (hs.again hst) (hf.again hst)
      rw [Int.add_assoc] at hrest
      exact hpass.trans hrest

end Run

end Scan
end Lorebook
