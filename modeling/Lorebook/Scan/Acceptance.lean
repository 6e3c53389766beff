import Lorebook.Scan.Activation

set_option autoImplicit false

/-!
Acceptance: candidates are selected in order, each after its roll and as long as the budget lasts.
After the first one that does not fit, only those that ignore the budget are still looked at.
-/

namespace Lorebook.Scan

def rolls (su : Setup) (e : Entry) : Bool :=
  e.useProbability && e.probability < 100 && !su.stickyActive e.key

def rollPasses (u : Float) (probability : Int) : Bool := u * 100.0 ≤ Float.ofInt probability

def roll (su : Setup) (e : Entry) (r : Random) : Bool × Random :=
  if rolls su e then
    let (u, r) := r.next
    (rollPasses u e.probability, r)
  else (true, r)

/-- Whether a candidate does not fit the budget. Counts are added modulo `2^64`. -/
def exceeds (su : Setup) (s : State) (c : Candidate) : Bool :=
  !c.entry.ignoreBudget && su.budget.any (· < Bounded.wrap (s.used + c.tokens))

def State.drop (s : State) (key : Bytes) (reason : DropReason) : State :=
  { s with candidates := s.candidates.setFate key (.dropped reason) }

def State.select (s : State) (c : Candidate) : State :=
  { s with
    candidates := s.candidates.setFate c.key .selected
    selectedKeys := addOnce c.key s.selectedKeys
    selectedGroups := c.entry.groupNames.foldl (fun gs g => addOnce g gs) s.selectedGroups
    used := Bounded.wrap (s.used + c.tokens) }

/-- Decides about one candidate; also says whether it was accepted. -/
def acceptOne (su : Setup) (s : State) (c : Candidate) : State × Bool :=
  if s.overflowed && !c.entry.ignoreBudget then (s.drop c.key .budgetExhausted, false)
  else
    let (passed, random) := roll su c.entry s.random
    let s := { s with random }
    if !passed then
      ({ s.drop c.key .probabilityFailed with failedKeys := addOnce c.key s.failedKeys }, false)
    else if exceeds su s c then ({ s.drop c.key .budgetExhausted with overflowed := true }, false)
    else (s.select c, true)

def accept (su : Setup) (s : State) : List Bytes → State × List Bytes
  | [] => (s, [])
  | k :: ks =>
    match s.candidates.find? k with
    | none => accept su s ks
    | some c =>
      let (s, accepted) := acceptOne su s c
      let (s, rest) := accept su s ks
      (s, if accepted then k :: rest else rest)

end Lorebook.Scan
