import Lorebook.Vocabulary

set_option autoImplicit false

/-!
Directives at the top of an entry's content: lines such as `@@depth 2` for the entry itself and
`@@@position outlet` for its recursive activation. Blank lines may stand between them; the first
other line starts the content proper.
-/

namespace Lorebook.Directive

structure Parsed where
  standard : Table Json := []
  fallback : Table Json := []
  content : Bytes := []
  deriving DecidableEq

def flagNames : List Bytes :=
  [lit "constant", lit "dont_activate", lit "activate", lit "ignore_on_max_context",
   lit "use_regex", lit "case_sensitive"]

def numberNames : List Bytes :=
  [lit "depth", lit "scan_depth", lit "activate_only_after", lit "activate_only_every"]

def listNames : List Bytes := [lit "additional_keys", lit "exclude_keys"]

def value (name text : Bytes) : Json :=
  if name ∈ flagNames then .bool true
  else if name ∈ numberNames then .int (Bytes.leadingInt text)
  else if name ∈ listNames then Json.texts (Bytes.trimmedPieces 44 text)
  else if name = lit "role" then
    match Role.ofName? text with
    | some r => .str r.name
    | none => .null
  else if name = lit "position" then .str (Position.ofName text).name
  else .str (Bytes.trim text)

/-- A directive without its marks: a name of word bytes, then the end or a space and a text. -/
def body? (s : Bytes) : Option (Bytes × Bytes) :=
  let name := s.takeWhile Bytes.isWord
  if name.isEmpty then none
  else match s.dropWhile Bytes.isWord with
    | [] => some (Bytes.toLower name, [])
    | b :: r =>
      if Bytes.isSpace b then some (Bytes.toLower name, Bytes.trim (b :: r)) else none

inductive Line where
  | blank
  | standard (name text : Bytes)
  | fallback (name text : Bytes)
  deriving DecidableEq, Repr

def line? (line : Bytes) : Option Line :=
  match Bytes.trim line with
  | [] => some .blank
  | 64 :: 64 :: 64 :: r => (body? r).map fun (n, t) => .fallback n t
  | 64 :: 64 :: r => (body? r).map fun (n, t) => .standard n t
  | _ => none

def Parsed.add (p : Parsed) : Line → Parsed
  | .blank => p
  | .standard n t => { p with standard := Table.put n (value n t) p.standard }
  | .fallback n t => { p with fallback := Table.put n (value n t) p.fallback }

/-- Reads lines up to the first that is neither blank nor a directive. -/
def parseLines (p : Parsed) : List Bytes → Parsed
  | [] => p
  | l :: ls =>
    match line? l with
    | some d => parseLines (p.add d) ls
    | none => { p with content := (l :: ls).flatten }

def parse (content : Bytes) : Parsed := parseLines {} (Bytes.fullLines content)

end Lorebook.Directive
