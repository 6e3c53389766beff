import Lorebook.Bytes.Lower
import Lorebook.Pattern.Parser
import Lorebook.Pattern.Search
import Lorebook.Table

set_option autoImplicit false

/-!
Whether an activation key occurs in a text. A key of the form `/pattern/flags` is a pattern if its
pattern compiles; any other key is a pattern where the entry says so, and else a keyword. A pattern
that does not compile matches nothing.
-/

namespace Lorebook

structure KeyOptions where
  caseSensitive : Bool := false
  wholeWords : Bool := true
  useRegex : Bool := false
  deriving DecidableEq, Repr

/-- The parts of a key such as `/pattern/flags`. -/
structure Literal where
  body : Bytes
  flags : Bytes
  deriving DecidableEq, Repr

namespace Literal

def knownFlags : Bytes := lit "dgimsuvy"

def splitLastSlash? (s : Bytes) : Option (Bytes × Bytes) :=
  let after := (s.reverse.takeWhile (· != 47)).reverse
  match s.reverse.dropWhile (· != 47) with
  | [] => none
  | _ :: before => some (before.reverse, after)

def ofKey? : Bytes → Option Literal
  | 47 :: rest =>
    match splitLastSlash? rest with
    | some (body, flags) =>
      if !body.isEmpty && flags.all (· ∈ knownFlags) then some ⟨body, flags⟩ else none
    | none => none
  | _ => none

/-- Makes each point outside of brackets match every byte. -/
def dotAllFrom (inSet : Bool) : Bytes → Bytes
  | [] => []
  | [b] => if b = 46 ∧ inSet = false then lit "[\\s\\S]" else [b]
  | b :: c :: r =>
    if b = 92 then b :: c :: dotAllFrom inSet r
    else if inSet then b :: dotAllFrom (b != 93) (c :: r)
    else if b = 91 then b :: dotAllFrom true (c :: r)
    else if b = 46 then lit "[\\s\\S]" ++ dotAllFrom false (c :: r)
    else b :: dotAllFrom false (c :: r)

def dotAll (body : Bytes) : Bytes := dotAllFrom false body

def options (l : Literal) : PatternOptions where
  ignoreCase := Bytes.ofChar 'i' ∈ l.flags
  multiline := Bytes.ofChar 'm' ∈ l.flags

def source (l : Literal) : Bytes :=
  if Bytes.ofChar 's' ∈ l.flags then dotAll l.body else l.body

end Literal

/-- What has to be compiled for a key, and the name under which the outcome can be kept. -/
structure Request where
  name : Bytes
  source : Bytes
  options : PatternOptions
  deriving DecidableEq, Repr

namespace Request

def ofLiteral (l : Literal) : Request :=
  ⟨lit "L" ++ l.flags ++ lit ":" ++ l.body, l.source, l.options⟩

def ofPattern (ignoreCase : Bool) (key : Bytes) : Request :=
  ⟨(if ignoreCase then lit "Pi:" else lit "P:") ++ key, key, { ignoreCase }⟩

def compile? (r : Request) : Option Pattern := Pattern.compile? r.options r.source

end Request

/-- Compiled patterns by name; none stands for a pattern that does not compile. -/
abbrev PatternCache := Table (Option Pattern)

namespace PatternCache

/-- The outcome for a request, compiled at most once. -/
def compile? (c : PatternCache) (r : Request) : Option Pattern × PatternCache :=
  match Table.get? r.name c with
  | some p => (p, c)
  | none =>
    let p := r.compile?
    (p, Table.put r.name p c)

def literal? (c : PatternCache) (key : Bytes) : Option Pattern × PatternCache :=
  match Literal.ofKey? key with
  | some l => c.compile? (.ofLiteral l)
  | none => (none, c)

end PatternCache

namespace KeyMatch

/-- Whether a keyword occurs in a text. Keywords with blanks inside are looked for as they are;
others on word boundaries, if whole words are asked for. -/
def keywordOccurs (o : KeyOptions) (key text : Bytes) : Bool :=
  let fold := if o.caseSensitive then id else Bytes.toLowerText
  let needle := fold key
  let hay := fold text
  if !o.wholeWords || Bytes.hasSpace (Bytes.trimEnd needle) then Bytes.contains needle hay
  else Bytes.containsWord needle hay

def matchesCached (o : KeyOptions) (key text : Bytes) (c : PatternCache) : Bool × PatternCache :=
  if Bytes.isBlank key then (false, c)
  else
    match c.literal? key with
    | (some p, c) => (p.occursIn text, c)
    | (none, c) =>
      if o.useRegex then
        let (p?, c) := c.compile? (.ofPattern (!o.caseSensitive) key)
        (p?.any (·.occursIn text), c)
      else (keywordOccurs o key text, c)

def literalPattern? (key : Bytes) : Option Pattern :=
  (Literal.ofKey? key).bind fun l => (Request.ofLiteral l).compile?

def keyMatches (o : KeyOptions) (key text : Bytes) : Bool :=
  if Bytes.isBlank key then false
  else
    match literalPattern? key with
    | some p => p.occursIn text
    | none =>
      if o.useRegex then
        (Request.ofPattern (!o.caseSensitive) key).compile?.any (·.occursIn text)
      else keywordOccurs o key text

end KeyMatch
end Lorebook
