import Lorebook.Entry

set_option autoImplicit false

/-!
Candidates: entries that have been activated in a scan, one for each key, and what became of them.
-/

namespace Lorebook

inductive DropReason where
  | probabilityFailed
  | budgetExhausted
  | groupStickyLoser
  | groupAlreadyActivated
  | groupScoreLoser
  | groupLoser
  deriving DecidableEq, Repr

def DropReason.name : DropReason → Bytes
  | probabilityFailed => lit "probability_failed"
  | budgetExhausted => lit "budget_exhausted"
  | groupStickyLoser => lit "group_sticky_loser"
  | groupAlreadyActivated => lit "group_already_activated"
  | groupScoreLoser => lit "group_score_loser"
  | groupLoser => lit "group_loser"

inductive Fate where
  | undecided
  | selected
  | dropped (reason : DropReason)
  deriving DecidableEq, Repr

structure Candidate where
  key : Bytes
  /-- The entry, perhaps in a forced or recursive variant. -/
  entry : Entry
  matchedPrimary : List Bytes
  matchedSecondary : List Bytes := []
  kind : ActivationKind
  tokens : Int
  fate : Fate := .undecided
  deriving DecidableEq

namespace Candidate

def isSelected (c : Candidate) : Bool := c.fate = .selected

def dropReason? (c : Candidate) : Option DropReason :=
  match c.fate with
  | .dropped r => some r
  | _ => none

def toJson (c : Candidate) : Json :=
  Json.object [
    (lit "uid", .str c.entry.uid),
    (lit "comment", .str c.entry.comment),
    (lit "position", .str c.entry.position.name),
    (lit "insertion_order", .int c.entry.insertionOrder),
    (lit "constant", .bool c.entry.constant),
    (lit "enabled", .bool c.entry.enabled),
    (lit "depth", .int c.entry.depth),
    (lit "role", .str c.entry.role.name),
    (lit "outlet", .str c.entry.outlet),
    (lit "source", .str c.entry.source),
    (lit "book_name", .str c.entry.bookName),
    (lit "content", .str c.entry.content),
    (lit "matched_primary_keys", .texts c.matchedPrimary),
    (lit "matched_secondary_keys", .texts c.matchedSecondary),
    (lit "activation_type", .str c.kind.name),
    (lit "token_estimate", .int c.tokens),
    (lit "selected", .bool c.isSelected),
    (lit "dropped_reason", .ofOption (fun r => .str r.name) c.dropReason?)]

end Candidate

/-- Candidates in the order of their first activation. -/
abbrev Candidates := List Candidate

namespace Candidates

def find? (cs : Candidates) (key : Bytes) : Option Candidate := List.find? (·.key = key) cs

def update (cs : Candidates) (key : Bytes) (f : Candidate → Candidate) : Candidates :=
  cs.map fun c => if c.key = key then f c else c

def setFate (cs : Candidates) (key : Bytes) (fate : Fate) : Candidates :=
  update cs key fun c => { c with fate }

end Candidates
end Lorebook
