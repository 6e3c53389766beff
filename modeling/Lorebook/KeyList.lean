import Lorebook.Json.Printer

set_option autoImplicit false

/-!
Key lists: keys separated by commas. A key that starts with a slash is a pattern literal: commas
inside the pattern do not separate, a backslash there keeps the byte after it, and after the closing
slash flags follow up to the next comma. Keys are trimmed and blank ones left out.
-/

namespace Lorebook.KeyList

/-- Where a reader of key lists stands. -/
inductive Place where
  | plain
  /-- In a pattern literal, before its closing slash. -/
  | pattern
  | escaped
  /-- After the closing slash of a pattern literal. -/
  | flags
  deriving DecidableEq, Repr

/-- The place after a byte that does not end the key, whose bytes so far are `seen`. -/
def Place.next (p : Place) (seen : Bytes) (b : UInt8) : Place :=
  match p with
  | plain => if b = 47 ∧ Bytes.isBlank seen = true then pattern else plain
  | pattern => if b = 92 then escaped else if b = 47 then flags else pattern
  | escaped => pattern
  | flags => flags

def Place.splits : Place → Bool
  | plain | flags => true
  | pattern | escaped => false

/-- The keys of a text as they stand, blanks included; `seen` holds the bytes of the current key,
latest first. -/
def rawKeys (p : Place) (seen : Bytes) : Bytes → List Bytes
  | [] => [seen.reverse]
  | b :: r =>
    if b = 44 ∧ p.splits = true then seen.reverse :: rawKeys .plain [] r
    else rawKeys (p.next seen b) (b :: seen) r

def tidy (keys : List Bytes) : List Bytes := (keys.map Bytes.trim).filter (!·.isEmpty)

def ofText (s : Bytes) : List Bytes := tidy (rawKeys .plain [] s)

def ofItem? : Json → Option Bytes
  | .null => none
  | .str s => some s
  | v => some v.compact

/-- The keys in a text, in the items of an array, or in the text of any other value but null. -/
def ofJson : Json → List Bytes
  | .null => []
  | .str s => ofText s
  | .arr vs => tidy (vs.filterMap ofItem?)
  | v => tidy [v.compact]

end Lorebook.KeyList
