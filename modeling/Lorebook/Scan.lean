import Lorebook.Outcome
import Lorebook.Scan.Acceptance
import Lorebook.Scan.Escalation
import Lorebook.Scan.Groups

set_option autoImplicit false

/-!
Scans: passes of activation, group resolution and acceptance, one after another until nothing calls
for a further one. Timed effects are looked at before the first pass and started after the last.
-/

namespace Lorebook.Scan

def step (su : Setup) (s : State) : Step :=
  let kind := passKind su s
  let (t, keys) := activate su { s with passes := s.passes + 1 }
  let t := t.note su (lit "pass " ++ Bytes.ofNat t.passes ++ lit " (" ++ kind.name ++ lit "): "
    ++ Bytes.ofNat keys.length ++ lit " activated")
  if keys.isEmpty then .stop t
  else
    let (t, keys) := resolveGroups su t (ordered su t keys)
    let (t, accepted) := accept su t keys
    if t.overflowed then
      .stop (t.note su (lit "token budget " ++ Bytes.ofInt (su.budget.getD 0)
        ++ lit " overflowed at " ++ Bytes.ofInt t.used ++ lit " used"))
    else escalate su t accepted

/-- The greatest number of passes. Each further one takes a recursion step, opens a level or widens
the window. -/
def passBound (su : Setup) : Nat :=
  if su.recursive then 1 + su.scanner.maxRecursionSteps + su.levels.length
  else 1 + (su.sources.messages.length - su.baseDepth).toNat

def run (su : Setup) : Nat → State → State
  | 0, s => s
  | fuel + 1, s =>
    match step su s with
    | .stop s => s
    | .again s => run su fuel s

structure Report where
  outcome : Except Fault Outcome
  vars : Variables
  random : Random
  estimator : Estimator
  log : List Bytes := []

def setup (sc : Scanner) (books : List Book) (o : Options) (effects : Effects) : Setup :=
  let entries := triggeredEntries books o.generation
  let minActivations := if o.minActivations < 0 then 0 else o.minActivations
  { scanner := sc
    sources := { messages := o.chat, context := o.context, injects := o.injects }
    entries
    recursive := minActivations ≤ 0 && 0 < sc.maxRecursionSteps
      && books.any (·.recursiveScanning)
    minActivations
    maxDepth := if o.minActivationsDepth < 0 then 0 else o.minActivationsDepth
    depth := o.window books
    budget := o.budget books
    groupScoring := o.groupScoring
    effects
    forced := .ofJson o.forced
    levels := recursionLevels entries }

def outcome (books : List Book) (o : Options) (used : Int) (candidates : Candidates) : Outcome where
  books := books.map (·.name)
  scanText := o.shownText
  budget := o.budget books
  usedTokens := used
  candidates
  strategy := o.strategy

def openingLine (sc : Scanner) (entries : List Entry) (g : GenerationType) : List Bytes :=
  if sc.verbose then
    [lit "[Engine] " ++ Bytes.ofNat entries.length ++ lit " entries for generation type " ++ g.name
      ++ lit "\n"]
  else []

def finalState (su : Setup) (random : Random) (log : List Bytes) : State :=
  run su (passBound su) { random, estimator := su.scanner.estimator, log }

def State.close (s : State) (su : Setup) : State :=
  s.note su (lit "selected " ++ Bytes.ofNat (s.candidates.countP (·.isSelected)) ++ lit " of "
    ++ Bytes.ofNat s.candidates.length ++ lit " candidates, " ++ Bytes.ofInt s.used
    ++ lit " tokens")

def evaluate (sc : Scanner) (books : List Book) (o : Options) (vars : Variables)
    (random : Random) : Report :=
  if books.isEmpty then
    { outcome := .error .noBooks, vars, random, estimator := sc.estimator }
  else
    let entries := triggeredEntries books o.generation
    let log := openingLine sc entries o.generation
    if entries.isEmpty then
      { outcome := .ok (outcome books o 0 []), vars, random, estimator := sc.estimator, log }
    else
      let clock := o.messageCount.getD o.chat.length
      match Effects.start clock entries vars o.stateKey false with
      | .error f => { outcome := .error f, vars, random, estimator := sc.estimator, log }
      | .ok (effects, warnings) =>
        let (effects, vars) := effects.check vars
        let su := setup sc books o effects
        let s := finalState su random (log ++ warnings)
        let selected := (s.candidates.filter (·.isSelected)).map (·.entry)
        let (_, vars) := effects.commit selected vars
        let s := s.close su
        { outcome := .ok (outcome books o s.used s.candidates)
          vars
          random := s.random
          estimator := s.estimator
          log := s.log }

end Lorebook.Scan
