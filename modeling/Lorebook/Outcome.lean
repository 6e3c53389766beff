import Lorebook.Scan.Candidate
import Lorebook.Sorting

set_option autoImplicit false

/-!
The outcome of a scan: its candidates, and the selected entries as they go into the prompt.
-/

namespace Lorebook

structure Outcome where
  books : List Bytes := []
  scanText : Bytes := []
  /-- Unset: no limit. -/
  budget : Option Int := none
  usedTokens : Int := 0
  candidates : Candidates := []
  strategy : InsertionStrategy := .sortedEvenly
  deriving DecidableEq

def Entry.sourceRank (e : Entry) : Nat :=
  if e.source = lit "chat" then 0 else if e.source = lit "persona" then 1 else 2

/-- The place that a strategy gives an entry. Every source that starts with `character` is character
lore. -/
def InsertionStrategy.rank (s : InsertionStrategy) (e : Entry) : Nat :=
  match s with
  | .sortedEvenly => 0
  | .characterLoreFirst =>
    if (lit "character").isPrefixOf e.source then 0 else if e.source.isEmpty then 1 else 2
  | .globalLoreFirst =>
    if e.source = lit "global" then 0 else if e.source.isEmpty then 1 else 2

def InsertionStrategy.le (s : InsertionStrategy) (a b : Entry) : Bool :=
  if a.sourceRank ≠ b.sourceRank then a.sourceRank < b.sourceRank
  else if s.rank a ≠ s.rank b then s.rank a < s.rank b
  else if a.insertionOrder ≠ b.insertionOrder then a.insertionOrder < b.insertionOrder
  else if a.bookName ≠ b.bookName then a.bookName < b.bookName
  else a.uid ≤ b.uid

namespace Outcome

def selected (o : Outcome) : Candidates := o.candidates.filter (·.isSelected)

def dropped (o : Outcome) : Candidates := o.candidates.filter (!·.isSelected)

def activatedEntries (o : Outcome) : List Entry := o.candidates.map (·.entry)

def selectedEntries (o : Outcome) : List Entry := o.selected.map (·.entry)

def budgetDropped (o : Outcome) : Nat :=
  o.candidates.countP (·.dropReason? = some .budgetExhausted)

def budgetExceeded (o : Outcome) : Bool := 0 < o.budgetDropped

def atPosition (o : Outcome) (s : InsertionStrategy) (p : Position) : List Entry :=
  sortBy s.le (o.selectedEntries.filter (·.position = p))

def byPosition (o : Outcome) (s : InsertionStrategy) : List (Position × List Entry) :=
  (Position.all.map fun p => (p, o.atPosition s p)).filter (!·.2.isEmpty)

def outletEntries (o : Outcome) : List Entry :=
  o.selectedEntries.filter fun e => e.position = .outlet && !Bytes.isBlank e.outlet

def outletContent (o : Outcome) (name : Bytes) : Bytes :=
  let entries := sortBy o.strategy.le (o.outletEntries.filter (·.outlet = name))
  Bytes.joinLines (entries.map (·.content))

def outlets (o : Outcome) : Table Bytes :=
  Table.ofRows (o.outletEntries.map fun e => (e.outlet, o.outletContent e.outlet))

def toJson (o : Outcome) : Json :=
  Json.object [
    (lit "books", .texts o.books),
    (lit "budget", match o.budget with
      | some n => .int n
      | none => .str (lit "unlimited")),
    (lit "used_tokens", .int o.usedTokens),
    (lit "budget_exceeded", .bool o.budgetExceeded),
    (lit "scan_text", .str o.scanText),
    (lit "insertion_strategy", .str o.strategy.name),
    (lit "candidates", .arr (o.candidates.map Candidate.toJson)),
    (lit "outlets", .obj (o.outlets.map fun (k, v) => (k, .str v)))]

end Outcome
end Lorebook
