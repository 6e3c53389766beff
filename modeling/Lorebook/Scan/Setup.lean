import Lorebook.Book
import Lorebook.Effects
import Lorebook.Random
import Lorebook.Scan.Candidate
import Lorebook.Scan.Forced
import Lorebook.Scan.Matching
import Lorebook.Scan.Text

set_option autoImplicit false

/-!
What a scan is given, what of that is fixed while it runs, and what changes from pass to pass.
-/

namespace Lorebook.Scan

structure Options where
  /-- One message a line, unless messages are given. -/
  text : Option Bytes := none
  /-- Most recent first. -/
  messages : Option (List Bytes) := none
  /-- The scan window; unset: the largest one of the books. -/
  depth : Option Int := none
  context : ContextParts Bytes := .fill []
  injects : List Bytes := []
  /-- Unset: the sum of the books' budgets; zero or less: no limit. -/
  tokenBudget : Option Int := none
  strategy : InsertionStrategy := .sortedEvenly
  generation : GenerationType := .normal
  /-- The clock of timed effects; unset: the number of messages. -/
  messageCount : Option Int := none
  stateKey : Bytes := Effects.defaultKey
  minActivations : Int := 0
  /-- The widest window that is tried for the sake of `minActivations`; zero: all messages. -/
  minActivationsDepth : Int := 0
  groupScoring : Bool := false
  forced : Json := .arr []

namespace Options

/-- The messages to scan. Empty lines at the end of a text are no messages. -/
def chat (o : Options) : List Bytes :=
  match o.messages, o.text with
  | some ms, _ => ms
  | none, some t => ((Bytes.lines t).reverse.dropWhile (·.isEmpty)).reverse
  | none, none => []

def shownText (o : Options) : Bytes := o.text.getD (Bytes.joinLines o.chat)

def budget (o : Options) (books : List Book) : Option Int :=
  let sum := books.foldl (fun n b =>
    match b.tokenBudget.filter (0 < ·) with
    | some m => Bounded.add n m
    | none => n) 0
  (o.tokenBudget.or (some sum)).filter (0 < ·)

def window (o : Options) (books : List Book) : Option Int :=
  o.depth.or (books.foldl (fun d b =>
    match b.scanDepth.filter (0 < ·), d with
    | some n, some m => some (if m < n then n else m)
    | some n, none => some n
    | none, d => d) none)

end Options

def triggeredEntries (books : List Book) (g : GenerationType) : List Entry :=
  (books.flatMap (·.entries)).filter (·.triggeredBy g)

/-- The recursion levels that entries wait for, increasing and each once. -/
def recursionLevels (entries : List Entry) : List Int :=
  let levels := (entries.filter (·.delaysUntilRecursion)).map (·.recursionLevel)
  sortBy (· ≤ ·) (levels.foldl (fun out n => if n ∈ out then out else n :: out) [])

structure Setup where
  scanner : Scanner
  sources : Sources
  entries : List Entry
  recursive : Bool
  /-- How many entries are to be selected by widening the window; 0 for no widening. -/
  minActivations : Int
  /-- The widest window for that; 0 for all messages. -/
  maxDepth : Int
  depth : Option Int
  budget : Option Int
  groupScoring : Bool
  effects : Effects
  forced : ForcedIndex
  levels : List Int

namespace Setup

def clock (su : Setup) : Int := su.effects.clock

def widens (su : Setup) : Bool := 0 < su.minActivations

def baseDepth (su : Setup) : Int := su.depth.getD su.sources.messages.length

def topLevel (su : Setup) : Int := su.levels.getLast?.getD 0

def stickyActive (su : Setup) (key : Bytes) : Bool := su.effects.stickyActive key

end Setup

structure State where
  passes : Nat := 0
  candidates : Candidates := []
  /-- The keys, the groups and the failed keys so far, each once. -/
  selectedKeys : List Bytes := []
  selectedGroups : List Bytes := []
  failedKeys : List Bytes := []
  used : Int := 0
  overflowed : Bool := false
  buffer : Bytes := []
  /-- The number of times the buffer grew. -/
  recursionSteps : Nat := 0
  /-- By how many messages the window was widened. -/
  widened : Nat := 0
  /-- The recursion level up to which entries may be activated. -/
  level : Int := 0
  random : Random
  estimator : Estimator
  log : List Bytes := []

def addOnce (x : Bytes) (xs : List Bytes) : List Bytes := if x ∈ xs then xs else xs ++ [x]

@[simp] theorem mem_addOnce {x y : Bytes} {xs : List Bytes} :
    y ∈ addOnce x xs ↔ y ∈ xs ∨ y = x := by
  unfold addOnce
  split
  · next h =>
    constructor
    · exact .inl
    · rintro (hy | rfl)
      · exact hy
      · exact h
  · simp

theorem nodup_addOnce {x : Bytes} {xs : List Bytes} (h : xs.Nodup) : (addOnce x xs).Nodup := by
  unfold addOnce
  split
  · exact h
  · next hx =>
    refine List.nodup_append.mpr ⟨h, by simp, fun y hy z hz heq => hx ?_⟩
    rw [← List.mem_singleton.mp hz, ← heq]
    exact hy

def State.note (s : State) (su : Setup) (line : Bytes) : State :=
  if su.scanner.verbose then { s with log := s.log ++ [lit "[Engine] " ++ line ++ lit "\n"] } else s

inductive PassKind where
  | direct
  | recursive
  | widened
  deriving DecidableEq, Repr

def PassKind.name : PassKind → Bytes
  | direct => lit "direct"
  | recursive => lit "recursive"
  | widened => lit "min_activations"

def passKind (su : Setup) (s : State) : PassKind :=
  if su.recursive && !s.buffer.isEmpty then .recursive
  else if su.widens && s.widened != 0 then .widened
  else .direct

def passDepth (su : Setup) (s : State) : Option Int :=
  if su.widens then su.depth.map (Bounded.add · s.widened) else su.depth

def textFor (su : Setup) (s : State) (e : Entry) : Bytes :=
  effectiveText su.sources (passDepth su s)
    (if passKind su s = .widened then none else some s.buffer) e

end Lorebook.Scan
