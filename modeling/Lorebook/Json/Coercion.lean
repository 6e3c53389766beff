import Lorebook.Bounded
import Lorebook.Json.Printer

set_option autoImplicit false

/-!
Lenient readings of JSON values as texts, integers and truth values. A value of the wrong shape
reads as absent.
-/

namespace Lorebook

/-- The greatest value to which `leadingInt` still appends a digit. -/
def Bytes.leadingIntLimit : Nat := 922337203685477579

/-- The number its digits stand for, read up to the first digit that might leave the signed 64-bit
range. -/
def Bytes.leadingDigits (value : Nat) : Bytes → Nat
  | [] => value
  | b :: r =>
    if isDigit b ∧ value ≤ leadingIntLimit then leadingDigits (value * 10 + digitValue b) r
    else value

/-- The integer at the start of a trimmed text: an optional sign, then digits; anything else
stops. -/
def Bytes.leadingInt (s : Bytes) : Int :=
  match trim s with
  | 45 :: r => -(leadingDigits 0 r : Int)
  | 43 :: r => leadingDigits 0 r
  | r => leadingDigits 0 r

/-- Toward zero, and to the nearer end of the signed 64-bit range beyond it. -/
def Binary64.toInt? (d : Binary64) : Option Int :=
  if d.isNaN then none
  else if d.isFinite then
    some (Bounded.clamp (if d.isNegative then -(d.truncated : Int) else d.truncated))
  else some (if d.isNegative then Bounded.min else Bounded.max)

namespace Json

/-- The text of a scalar, nothing for null; arrays and objects are written out. Integers above the
signed range appear as their negative counterparts modulo `2^64`. -/
def toText : Json → Bytes
  | .null => []
  | .str s => s
  | .int n => Bytes.ofInt (Bounded.wrap n)
  | v => compact v

/-- Integers pinned to the signed 64-bit range, doubles without their fraction, truth values as 0
and 1, texts by the digits they start with. -/
def toInt? : Json → Option Int
  | .int n => some (Bounded.clamp n)
  | .float d => d.toInt?
  | .bool b => some (if b then 1 else 0)
  | .str s =>
    let t := Bytes.trim s
    let digits := match t with
      | 45 :: r => r
      | 43 :: r => r
      | r => r
    match digits with
    | b :: _ => if Bytes.isDigit b then some (Bytes.leadingInt t) else none
    | [] => none
  | _ => none

def trueWords : List Bytes := [lit "1", lit "true", lit "yes", lit "y", lit "on"]
def falseWords : List Bytes := [lit "0", lit "false", lit "no", lit "n", lit "off"]

def boolOfWord? (s : Bytes) : Option Bool :=
  let w := Bytes.toLower (Bytes.trim s)
  if w ∈ trueWords then some true else if w ∈ falseWords then some false else none

def toBool? : Json → Option Bool
  | .bool b => some b
  | .null | .obj _ | .arr _ => none
  | v => boolOfWord? v.toText

/-- The words for true and false decide; any other value but null counts as true. -/
def truthy (v : Json) : Bool := v.toBool?.getD (!v.isNull)

end Json
end Lorebook
