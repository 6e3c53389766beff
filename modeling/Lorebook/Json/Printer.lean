import Lorebook.Bytes.Utf8
import Lorebook.Binary64.Shortest
import Lorebook.Json

set_option autoImplicit false

/-!
Writing JSON values: `compact` without blanks, `indented` with one item a line. Fields keep the
order in which the object holds them. Texts are written byte for byte; `repaired` makes a value
whose texts are UTF-8, and `flaw?` finds the first text that is not.
-/

namespace Lorebook.Json

def hexDigit (n : Nat) : UInt8 := if n < 10 then UInt8.ofNat (48 + n) else UInt8.ofNat (87 + n)

def escapeByte (b : UInt8) : Bytes :=
  if b == 34 then lit "\\\""
  else if b == 92 then lit "\\\\"
  else if b == 8 then lit "\\b"
  else if b == 12 then lit "\\f"
  else if b == 10 then lit "\\n"
  else if b == 13 then lit "\\r"
  else if b == 9 then lit "\\t"
  else if b < 32 then lit "\\u00" ++ [hexDigit (b.toNat / 16), hexDigit (b.toNat % 16)]
  else [b]

def quoted (s : Bytes) : Bytes := 34 :: s.flatMap escapeByte ++ [34]

def comma : Bytes := lit ","

mutual

def compact : Json → Bytes
  | .null => lit "null"
  | .bool b => if b then lit "true" else lit "false"
  | .int n => Bytes.ofInt n
  | .float d => d.text
  | .str s => quoted s
  | .arr vs => lit "[" ++ Bytes.join comma (compactItems vs) ++ lit "]"
  | .obj fs => lit "\x7b" ++ Bytes.join comma (compactFields fs) ++ lit "\x7d"

def compactItems : List Json → List Bytes
  | [] => []
  | v :: vs => compact v :: compactItems vs

def compactFields : List (Bytes × Json) → List Bytes
  | [] => []
  | (k, v) :: fs => (quoted k ++ lit ":" ++ compact v) :: compactFields fs

end

def indent (depth : Nat) : Bytes := List.replicate (2 * depth) 32

/-- Brackets around items that stand on lines of their own, one step deeper than `depth`. -/
def block (opening closing : Bytes) (depth : Nat) (items : List Bytes) : Bytes :=
  if items.isEmpty then opening ++ closing
  else
    let sep := lit ",\n" ++ indent (depth + 1)
    opening ++ lit "\n" ++ indent (depth + 1) ++ Bytes.join sep items
      ++ lit "\n" ++ indent depth ++ closing

mutual

def indented : Nat → Json → Bytes
  | depth, .arr vs => block (lit "[") (lit "]") depth (indentedItems (depth + 1) vs)
  | depth, .obj fs => block (lit "\x7b") (lit "\x7d") depth (indentedFields (depth + 1) fs)
  | _, v => compact v

def indentedItems : Nat → List Json → List Bytes
  | _, [] => []
  | depth, v :: vs => indented depth v :: indentedItems depth vs

def indentedFields : Nat → List (Bytes × Json) → List Bytes
  | _, [] => []
  | depth, (k, v) :: fs =>
    (quoted k ++ lit ": " ++ indented depth v) :: indentedFields depth fs

end

mutual

/-- The value with each text made UTF-8 by replacement characters. -/
def repaired : Json → Json
  | .str s => .str (Utf8.repair s)
  | .arr vs => .arr (repairedItems vs)
  | .obj fs => .obj (repairedFields fs)
  | v => v

def repairedItems : List Json → List Json
  | [] => []
  | v :: vs => repaired v :: repairedItems vs

def repairedFields : List (Bytes × Json) → List (Bytes × Json)
  | [] => []
  | (k, v) :: fs => (Utf8.repair k, repaired v) :: repairedFields fs

end

mutual

/-- The flaw of the first text, in the order of writing, that is not UTF-8. -/
def flaw? : Json → Option Utf8.Flaw
  | .str s => Utf8.flaw? s
  | .arr vs => itemsFlaw? vs
  | .obj fs => fieldsFlaw? fs
  | _ => none

def itemsFlaw? : List Json → Option Utf8.Flaw
  | [] => none
  | v :: vs => (flaw? v).or (itemsFlaw? vs)

def fieldsFlaw? : List (Bytes × Json) → Option Utf8.Flaw
  | [] => none
  | (k, v) :: fs => (Utf8.flaw? k).or ((flaw? v).or (fieldsFlaw? fs))

end

end Lorebook.Json
