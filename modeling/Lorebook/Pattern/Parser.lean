import Lorebook.Pattern.Names
import Lorebook.Pattern.Token

set_option autoImplicit false

/-!
Patterns from their tokens. A pattern is refused if it is not well formed, if it refers to a group
that is not complete, or if its automaton would be too large.
-/

namespace Lorebook.Pattern

structure Progress where
  groups : Nat := 1
  openGroups : List Nat := [0]
  /-- The number of states of the automaton. -/
  states : Nat := 1
  /-- The next number of a repetition. -/
  fresh : Nat := 0
  deriving DecidableEq, Repr

def stateLimit : Nat := 100000

def Progress.grow (p : Progress) (n : Nat) : Progress := { p with states := p.states + n }

def Progress.next (p : Progress) : Progress := { p with fresh := p.fresh + 1 }

/-- What was read last between brackets: a byte may still become the start of a range. -/
inductive Pending where
  | nothing
  | byte (b : UInt8)
  | cls
  deriving DecidableEq, Repr

def Pending.flush (items : List SetItem) : Pending → List SetItem
  | .byte b => .byte b :: items
  | _ => items

def range? (low high : UInt8) : Option SetItem :=
  if signedByte low ≤ signedByte high then some (.range low high) else none

def setItems? (pending : Pending) (items : List SetItem) :
    List Token → Option (List SetItem × List Token)
  | [] => none
  | .closeSet :: ts => some (pending.flush items, ts)
  | .byte b :: ts => setItems? (.byte b) (pending.flush items) ts
  | .named n :: ts =>
    match byteOfName? n with
    | none => none
    | some b => setItems? (.byte b) (pending.flush (.byte b :: items)) ts
  | .equivalent n :: ts =>
    match byteOfName? n with
    | none => none
    | some b => setItems? .cls (.anyCase b :: pending.flush items) ts
  | .namedClass n :: ts =>
    match ByteClass.ofName? n with
    | none => none
    | some c => setItems? .cls (.cls c :: pending.flush items) ts
  | .cls c negated :: ts =>
    setItems? .cls ((if negated then .notCls c else .cls c) :: pending.flush items) ts
  | .dash :: .closeSet :: ts => some (.byte 45 :: pending.flush items, ts)
  | .dash :: ts =>
    match pending with
    | .cls => none
    | .nothing => setItems? (.byte 45) items ts
    | .byte low =>
      match ts with
      | .byte high :: ts =>
        match range? low high with
        | none => none
        | some r => setItems? .nothing (r :: items) ts
      | .dash :: ts =>
        match range? low 45 with
        | none => none
        | some r => setItems? .nothing (r :: items) ts
      | _ => none
  | _ => none

def copies (a : Node) (fresh : Nat) : Nat → Node × Nat
  | 0 => (.empty, fresh)
  | n + 1 =>
    let (a', fresh) := a.renumber fresh
    let (rest, fresh) := copies a fresh n
    (.seq a' rest, fresh)

/-- Up to `n` copies of a part one after another, each but the first only after the one before. -/
def upTo (reluctant : Bool) (a : Node) (fresh : Nat) : Nat → Node × Nat
  | 0 => (.empty, fresh)
  | n + 1 =>
    let (a', fresh) := a.renumber fresh
    let (rest, fresh) := upTo reluctant a fresh n
    (.optional fresh reluctant (.seq a' rest), fresh + 1)

/-- A mark after a quantifier makes it reluctant. -/
def reluctant : List Token → Bool × List Token
  | .optional :: ts => (true, ts)
  | ts => (false, ts)

def count? : List Token → Option (Nat × Option Nat × List Token)
  | .count m :: .closeCount :: ts => some (m, some m, ts)
  | .count m :: .comma :: .closeCount :: ts => some (m, none, ts)
  | .count m :: .comma :: .count n :: .closeCount :: ts =>
    if n < m then none else some (m, some n, ts)
  | _ => none

def counted? (p : Progress) (a : Node) (m : Nat) (n? : Option Nat) (lazy : Bool) :
    Option (Node × Progress) :=
  let size := a.states
  let added := match n? with
    | none => 2 + (m + 1) * size
    | some n => 2 + m * size + (n - m) * (size + 1)
  if stateLimit < p.states + added then none
  else
    let (required, fresh) := copies a p.fresh m
    let (rest, fresh) := match n? with
      | none =>
        let (a', fresh) := a.renumber fresh
        (Node.many fresh lazy a', fresh + 1)
      | some n => upTo lazy a fresh (n - m)
    some (.seq required rest, { p with states := p.states + added, fresh })

def quantified? : Nat → Progress → Node → List Token → Option (Node × Progress × List Token)
  | 0, _, _, _ => none
  | fuel + 1, p, a, ts =>
    match ts with
    | .many :: ts =>
      let (lazy, ts) := reluctant ts
      quantified? fuel (p.next.grow 1) (.many p.fresh lazy a) ts
    | .some :: ts =>
      let (lazy, ts) := reluctant ts
      quantified? fuel (p.next.grow 1) (.some p.fresh lazy a) ts
    | .optional :: ts =>
      let (lazy, ts) := reluctant ts
      quantified? fuel (p.next.grow 2) (.seq (.optional p.fresh lazy a) .empty) ts
    | .openCount :: ts =>
      match count? ts with
      | none => none
      | some (m, n?, ts) =>
        let (lazy, ts) := reluctant ts
        match counted? p a m n? lazy with
        | none => none
        | some (a, p) => quantified? fuel p a ts
    | ts => some (a, p, ts)

mutual

def alternatives? : Nat → Progress → List Token → Option (Node × Progress × List Token)
  | 0, _, _ => none
  | fuel + 1, p, ts =>
    match sequence? fuel p ts with
    | none => none
    | some (a, p, ts) => further? fuel p a ts

def further? : Nat → Progress → Node → List Token → Option (Node × Progress × List Token)
  | 0, _, _, _ => none
  | fuel + 1, p, a, ts =>
    match ts with
    | .either :: ts =>
      match sequence? fuel p ts with
      | none => none
      | some (b, p, ts) => further? fuel (p.grow 2) (.either a b) ts
    | ts => some (a, p, ts)

def sequence? : Nat → Progress → List Token → Option (Node × Progress × List Token)
  | 0, _, _ => none
  | fuel + 1, p, ts =>
    match ts with
    | [] => some (.empty, p.grow 1, [])
    | .either :: ts => some (.empty, p.grow 1, .either :: ts)
    | .close :: ts => some (.empty, p.grow 1, .close :: ts)
    | t :: ts =>
      match term? fuel p t ts with
      | none => none
      | some (a, p, ts) =>
        match sequence? fuel p ts with
        | none => none
        | some (b, p, ts) => some (.seq a b, p, ts)

def term? : Nat → Progress → Token → List Token → Option (Node × Progress × List Token)
  | 0, _, _, _ => none
  | fuel + 1, p, t, ts =>
    match t with
    | .lineStart => some (.lineStart, p.grow 1, ts)
    | .lineEnd => some (.lineEnd, p.grow 1, ts)
    | .wordEdge negated => some (.wordEdge negated, p.grow 1, ts)
    | .openAhead negated =>
      match alternatives? fuel p ts with
      | some (a, p, .close :: ts) => some (.ahead negated a, p.grow 2, ts)
      | _ => none
    | .byte b => quantified? (ts.length + 1) (p.grow 1) (.byte b) ts
    | .any => quantified? (ts.length + 1) (p.grow 1) .any ts
    | .cls c negated => quantified? (ts.length + 1) (p.grow 1) (.set negated [.cls c]) ts
    | .same g =>
      if g < p.groups ∧ g ∉ p.openGroups then
        quantified? (ts.length + 1) (p.grow 1) (.same g) ts
      else none
    | .openSet negated =>
      match setItems? .nothing [] ts with
      | none => none
      | some (items, ts) => quantified? (ts.length + 1) (p.grow 1) (.set negated items) ts
    | .openPlain =>
      match alternatives? fuel (p.grow 1) ts with
      | some (a, p, .close :: ts) => quantified? (ts.length + 1) p (.seq .empty a) ts
      | _ => none
    | .openGroup =>
      let g := p.groups
      let inner := { p.grow 2 with groups := g + 1, openGroups := g :: p.openGroups }
      match alternatives? fuel inner ts with
      | some (a, p', .close :: ts) =>
        quantified? (ts.length + 1) { p' with openGroups := p.openGroups } (.group g a) ts
      | _ => none
    | _ => none

end

def compile? (options : PatternOptions) (source : Bytes) : Option Pattern :=
  match tokens? source with
  | none => none
  | some ts =>
    match alternatives? (4 * ts.length + 8) {} ts with
    | some (root, p, []) =>
      if stateLimit < p.states + 2 then none else some { options, root, groups := p.groups }
    | _ => none

end Lorebook.Pattern
