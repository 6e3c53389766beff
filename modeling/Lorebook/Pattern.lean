import Lorebook.Bytes

set_option autoImplicit false

/-!
Patterns as trees: what one byte may be, anchors, groups, look-aheads and repetitions. Every
repetition carries a number of its own, under which a search keeps how often it was entered.
-/

namespace Lorebook

inductive ByteClass where
  | alnum
  | alpha
  | blank
  | cntrl
  | digit
  | graph
  | lower
  | print
  | punct
  | space
  | upper
  | word
  | xdigit
  deriving DecidableEq, Repr

namespace ByteClass

def contains (c : ByteClass) (b : UInt8) : Bool :=
  let alpha := Bytes.isUpper b || Bytes.isLower b
  let alnum := alpha || Bytes.isDigit b
  match c with
  | .alnum => alnum
  | .alpha => alpha
  | .blank => b == 32 || b == 9
  | .cntrl => b < 32 || b == 127
  | .digit => Bytes.isDigit b
  | .graph => 32 < b && b < 127
  | .lower => Bytes.isLower b
  | .print => 32 ≤ b && b < 127
  | .punct => 32 < b && b < 127 && !alnum
  | .space => Bytes.isSpace b
  | .upper => Bytes.isUpper b
  | .word => Bytes.isWord b
  | .xdigit => Bytes.isDigit b || (97 ≤ b && b ≤ 102) || (65 ≤ b && b ≤ 70)

def ignoringCase : ByteClass → ByteClass
  | .lower => .alpha
  | .upper => .alpha
  | c => c

end ByteClass

def signedByte (b : UInt8) : Int := if b < 128 then b.toNat else (b.toNat : Int) - 256

inductive SetItem where
  | byte (b : UInt8)
  /-- Bytes are compared as signed numbers. -/
  | range (low high : UInt8)
  | cls (c : ByteClass)
  | notCls (c : ByteClass)
  /-- The byte in either case, whatever the options. -/
  | anyCase (b : UInt8)
  deriving DecidableEq, Repr

namespace SetItem

def inRange (low high b : UInt8) : Bool :=
  signedByte low ≤ signedByte b && signedByte b ≤ signedByte high

def contains (ignoreCase : Bool) (b : UInt8) : SetItem → Bool
  | .byte c => if ignoreCase then Bytes.toLowerByte c == Bytes.toLowerByte b else c == b
  | .range low high =>
    if ignoreCase then
      inRange low high (Bytes.toLowerByte b) || inRange low high (Bytes.toUpperByte b)
    else inRange low high b
  | .cls c => (if ignoreCase then c.ignoringCase else c).contains b
  | .notCls c => !(if ignoreCase then c.ignoringCase else c).contains b
  | .anyCase c => Bytes.toLowerByte c == Bytes.toLowerByte b

end SetItem

inductive Node where
  | empty
  | byte (b : UInt8)
  /-- Any byte that ends no line. -/
  | any
  | set (negated : Bool) (items : List SetItem)
  | lineStart
  | lineEnd
  | wordEdge (negated : Bool)
  /-- The text that a group has matched. -/
  | same (group : Nat)
  | seq (first second : Node)
  | either (first second : Node)
  | group (number : Nat) (body : Node)
  | ahead (negated : Bool) (body : Node)
  | many (number : Nat) (reluctant : Bool) (body : Node)
  | some (number : Nat) (reluctant : Bool) (body : Node)
  | optional (number : Nat) (reluctant : Bool) (body : Node)
  deriving DecidableEq, Repr

namespace Node

/-- The number of states of an automaton for the part. -/
def states : Node → Nat
  | .seq a b => a.states + b.states
  | .either a b => a.states + b.states + 2
  | .group _ a | .ahead _ a => a.states + 2
  | .many _ _ a | .some _ _ a | .optional _ _ a => a.states + 1
  | _ => 1

/-- A copy whose repetitions have fresh numbers from `n` on, and the next fresh number. -/
def renumber : Node → Nat → Node × Nat
  | .seq a b, n =>
    let (a, n) := a.renumber n
    let (b, n) := b.renumber n
    (.seq a b, n)
  | .either a b, n =>
    let (a, n) := a.renumber n
    let (b, n) := b.renumber n
    (.either a b, n)
  | .group g a, n =>
    let (a, n) := a.renumber n
    (.group g a, n)
  | .ahead neg a, n =>
    let (a, n) := a.renumber n
    (.ahead neg a, n)
  | .many _ r a, n =>
    let (a, n) := a.renumber n
    (.many n r a, n + 1)
  | .some _ r a, n =>
    let (a, n) := a.renumber n
    (.some n r a, n + 1)
  | .optional _ r a, n =>
    let (a, n) := a.renumber n
    (.optional n r a, n + 1)
  | a, n => (a, n)

end Node

structure PatternOptions where
  ignoreCase : Bool := false
  /-- Line starts and line ends also match next to line terminators. -/
  multiline : Bool := false
  deriving DecidableEq, Repr

structure Pattern where
  options : PatternOptions
  root : Node
  /-- The number of groups, the whole pattern being number 0. -/
  groups : Nat
  deriving DecidableEq, Repr

end Lorebook
