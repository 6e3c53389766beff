import Lorebook.Pattern

set_option autoImplicit false

/-!
Searching for a pattern by backtracking. A part is matched with a continuation for what follows it.
What the groups have matched is handed on through failures as well, since a look-ahead leaves its
groups behind even where the search comes back before it.
-/

namespace Lorebook.Pattern

/-- What a group has matched: `first` moves when the group is entered, `last` and `matched` when it
is left. -/
structure Capture where
  first : Nat := 0
  last : Nat := 0
  matched : Bool := false
  deriving DecidableEq, Repr

abbrev Captures := List Capture

def captureAt (cs : Captures) (g : Nat) : Capture := cs.getD g {}

def mergeCaptures (before after : Captures) : Captures :=
  List.zipWith (fun b a => if a.matched then a else b) before after

/-- For every repetition entered, the place where that was last and how often it was there. -/
abbrev Entered := List (Nat × Nat × Nat)

def enteredAt (es : Entered) (number : Nat) : Nat × Nat := (es.lookup number).getD (0, 0)

/-- A repetition may be entered twice at one place. -/
def enter? (es : Entered) (number place : Nat) : Option Entered :=
  let (lastPlace, times) := enteredAt es number
  if times = 0 ∨ lastPlace ≠ place then some ((number, place, 1) :: es)
  else if times < 2 then some ((number, place, times + 1) :: es)
  else none

inductive Found where
  | yes (captures : Captures)
  | no (captures : Captures)
  deriving DecidableEq, Repr

def Found.onFailure (f : Captures → Captures) : Found → Found
  | .yes cs => .yes cs
  | .no cs => .no (f cs)

def Found.orElse (other : Captures → Found) : Found → Found
  | .yes cs => .yes cs
  | .no cs => other cs

structure Subject where
  options : PatternOptions
  text : Array UInt8
  start : Nat
  /-- Whether a byte before the start may be looked at. -/
  hasBefore : Bool

namespace Subject

def isLineEnd (b : UInt8) : Bool := b == 10 || b == 13

def before? (s : Subject) (place : Nat) : Option UInt8 :=
  if place = s.start ∧ s.hasBefore = false then none else s.text[place - 1]?

def atLineStart (s : Subject) (place : Nat) : Bool :=
  match s.before? place with
  | none => true
  | some b => s.options.multiline && isLineEnd b

def atLineEnd (s : Subject) (place : Nat) : Bool :=
  match s.text[place]? with
  | none => true
  | some b => s.options.multiline && isLineEnd b

def atWordEdge (s : Subject) (place : Nat) : Bool :=
  ((s.before? place).any Bytes.isWord) != ((s.text[place]?).any Bytes.isWord)

def sameByte (s : Subject) (a b : UInt8) : Bool :=
  if s.options.ignoreCase then Bytes.toLowerByte a == Bytes.toLowerByte b else a == b

def agree (s : Subject) (i j : Nat) : Nat → Bool
  | 0 => true
  | n + 1 =>
    match s.text[i]?, s.text[j]? with
    | some a, some b => s.sameByte a b && s.agree (i + 1) (j + 1) n
    | _, _ => false

end Subject

abbrev Continuation := Nat → Captures → Entered → Found

abbrev Matcher := Nat → Captures → Entered → Continuation → Found

def oneByte (s : Subject) (p : UInt8 → Bool) : Matcher := fun place cs es k =>
  match s.text[place]? with
  | some b => if p b then k (place + 1) cs es else .no cs
  | none => .no cs

def condition (holds : Bool) (place : Nat) (cs : Captures) (es : Entered) (k : Continuation) :
    Found :=
  if holds then k place cs es else .no cs

/-- A body any number of times. The place never moves back and no place is entered thrice, so fuel
of twice the number of places is enough. -/
def repeatedly (body : Matcher) (number : Nat) (lazy : Bool) : Nat → Matcher
  | 0, _, cs, _, _ => .no cs
  | fuel + 1, place, cs, es, k =>
    let again (cs : Captures) : Found :=
      match enter? es number place with
      | some es' =>
        body place cs es' fun place cs es => repeatedly body number lazy fuel place cs es k
      | none => .no cs
    if lazy then (k place cs es).orElse again else (again cs).orElse fun cs => k place cs es

def atMostOnce (body : Matcher) (number : Nat) (lazy : Bool) : Matcher := fun place cs es k =>
  let once (cs : Captures) : Found :=
    match enter? es number place with
    | some es' => body place cs es' k
    | none => .no cs
  if lazy then (k place cs es).orElse once else (once cs).orElse fun cs => k place cs es

def capturing (body : Matcher) (g : Nat) : Matcher := fun place cs es k =>
  let old := captureAt cs g
  let opened := cs.set g { old with first := place }
  let found := body place opened es fun place' cs' es' =>
    let inner := captureAt cs' g
    (k place' (cs'.set g { inner with last := place', matched := true }) es').onFailure
      fun cs'' => cs''.set g inner
  found.onFailure fun cs' => cs'.set g { captureAt cs' g with first := old.first }

def repeatFuel (s : Subject) (place : Nat) : Nat := 2 * (s.text.size - place) + 3

def matchNode : Node → Subject → Matcher
  | .empty, _ => fun place cs es k => k place cs es
  | .byte b, s => oneByte s (s.sameByte b)
  | .any, s => oneByte s fun b => !Subject.isLineEnd b
  | .set negated items, s =>
    oneByte s fun b => items.any (·.contains s.options.ignoreCase b) != negated
  | .lineStart, s => fun place => condition (s.atLineStart place) place
  | .lineEnd, s => fun place => condition (s.atLineEnd place) place
  | .wordEdge negated, s => fun place => condition (s.atWordEdge place != negated) place
  | .same g, s => fun place cs es k =>
    let c := captureAt cs g
    let n := c.last - c.first
    if c.matched ∧ s.agree c.first place n then k (place + n) cs es else .no cs
  | .seq a b, s => fun place cs es k =>
    matchNode a s place cs es fun place cs es => matchNode b s place cs es k
  | .either a b, s => fun place cs es k =>
    (matchNode a s place cs es k).orElse fun cs => matchNode b s place cs es k
  | .group g a, s => capturing (matchNode a s) g
  | .ahead negated a, s => fun place cs es k =>
    match matchNode a { s with start := place } place cs [] fun _ cs _ => .yes cs with
    | .yes inner =>
      let cs := mergeCaptures cs inner
      if negated then .no cs else k place cs es
    | .no _ => if negated then k place cs es else .no cs
  | .many number lazy a, s => fun place =>
    repeatedly (matchNode a s) number lazy (repeatFuel s place) place
  | .some number lazy a, s => fun place cs es k =>
    matchNode a s place cs es fun place cs es =>
      repeatedly (matchNode a s) number lazy (repeatFuel s place) place cs es k
  | .optional number lazy a, s => atMostOnce (matchNode a s) number lazy

def matchesAt (p : Pattern) (text : Array UInt8) (place : Nat) : Bool :=
  let s : Subject := { options := p.options, text, start := place, hasBefore := place != 0 }
  match matchNode p.root s place (List.replicate p.groups {}) [] fun _ cs _ => .yes cs with
  | .yes _ => true
  | .no _ => false

def occursIn (p : Pattern) (text : Bytes) : Bool :=
  (List.range (text.length + 1)).any (p.matchesAt text.toArray)

end Lorebook.Pattern
