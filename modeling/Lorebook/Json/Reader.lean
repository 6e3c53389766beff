import Lorebook.Bytes.Utf8
import Lorebook.Binary64.Shortest
import Lorebook.Json

set_option autoImplicit false

/-!
Reading JSON texts as RFC 8259 has them: UTF-8 only, no lone surrogates, nothing but blanks after
the value. A byte order mark at the start is skipped. A number without fraction and exponent is an
integer if it fits 64 bits (signed with a minus sign, else unsigned); any other number is a double,
and one beyond the doubles is refused.
-/

namespace Lorebook.Json

def isBlank (b : UInt8) : Bool := b == 32 || b == 9 || b == 10 || b == 13

def skipBlanks (s : Bytes) : Bytes := s.dropWhile isBlank

def hexDigit? (b : UInt8) : Option Nat :=
  if 48 ≤ b ∧ b ≤ 57 then some (b.toNat - 48)
  else if 97 ≤ b ∧ b ≤ 102 then some (b.toNat - 87)
  else if 65 ≤ b ∧ b ≤ 70 then some (b.toNat - 55)
  else none

def hex4? (a b c d : UInt8) : Option Nat := do
  some (((← hexDigit? a) * 16 + (← hexDigit? b)) * 256 + (← hexDigit? c) * 16 + (← hexDigit? d))

/-- What a one-letter escape stands for: a quote, backslash or slash itself, or one of the control
bytes `b f n r t`. -/
def escaped? (b : UInt8) : Option UInt8 :=
  if b == 34 || b == 92 || b == 47 then some b
  else if b == 98 then some 8
  else if b == 102 then some 12
  else if b == 110 then some 10
  else if b == 114 then some 13
  else if b == 116 then some 9
  else none

def isHighSurrogate (c : Nat) : Bool := 0xD800 ≤ c && c ≤ 0xDBFF

def isLowSurrogate (c : Nat) : Bool := 0xDC00 ≤ c && c ≤ 0xDFFF

def prepend (s : Bytes) (read : Option (Bytes × Bytes)) : Option (Bytes × Bytes) :=
  read.map fun (t, rest) => (s ++ t, rest)

def stringBody : Bytes → Option (Bytes × Bytes)
  | [] => none
  | b :: r =>
    if b = 34 then some ([], r)
    else if b < 32 then none
    else if b ≠ 92 then prepend [b] (stringBody r)
    else match r with
      | [] => none
      | e :: r₁ =>
        if e ≠ 117 then
          match escaped? e with
          | none => none
          | some x => prepend [x] (stringBody r₁)
        else match r₁ with
          | a₁ :: a₂ :: a₃ :: a₄ :: r₂ =>
            match hex4? a₁ a₂ a₃ a₄ with
            | none => none
            | some c =>
              if isLowSurrogate c then none
              else if isHighSurrogate c then
                match r₂ with
                | 92 :: 117 :: b₁ :: b₂ :: b₃ :: b₄ :: r₃ =>
                  match hex4? b₁ b₂ b₃ b₄ with
                  | none => none
                  | some l =>
                    if isLowSurrogate l then
                      prepend (Utf8.encode (0x10000 + (c - 0xD800) * 1024 + (l - 0xDC00)))
                        (stringBody r₃)
                    else none
                | _ => none
              else prepend (Utf8.encode c) (stringBody r₂)
          | _ => none

def string? (s : Bytes) : Option (Bytes × Bytes) :=
  match stringBody s with
  | some (t, rest) => if Utf8.isValid t then some (t, rest) else none
  | none => none

def natOfDigits (digits : Bytes) : Nat :=
  digits.foldl (fun n b => n * 10 + Bytes.digitValue b) 0

def fraction? (s : Bytes) : Option (Option Bytes × Bytes) :=
  match s with
  | 46 :: r =>
    let digits := r.takeWhile Bytes.isDigit
    if digits.isEmpty then none else some (some digits, r.dropWhile Bytes.isDigit)
  | _ => some (none, s)

def exponent? (s : Bytes) : Option (Option Int × Bytes) :=
  match s with
  | b :: r =>
    if b = 101 ∨ b = 69 then
      let (negative, r) : Bool × Bytes := match r with
        | 43 :: r' => (false, r')
        | 45 :: r' => (true, r')
        | _ => (false, r)
      let digits := r.takeWhile Bytes.isDigit
      if digits.isEmpty then none
      else
        let n : Int := natOfDigits digits
        some (some (if negative then -n else n), r.dropWhile Bytes.isDigit)
    else some (none, s)
  | [] => some (none, [])

/-- The integer, or the double nearest to it where it does not fit 64 bits. -/
def ofInteger? (negative : Bool) (n : Nat) : Option Json :=
  if negative then
    if n ≤ 9223372036854775808 then some (.int (-n)) else (Binary64.ofDecimal? true n 0).map .float
  else
    if n ≤ 18446744073709551615 then some (.int n) else (Binary64.ofDecimal? false n 0).map .float

def number? (s : Bytes) : Option (Json × Bytes) := do
  let (negative, s) : Bool × Bytes := match s with
    | 45 :: r => (true, r)
    | _ => (false, s)
  let whole := s.takeWhile Bytes.isDigit
  if whole.isEmpty || (whole.length > 1 && whole.head? == some 48) then none
  else
    let (frac, s) ← fraction? (s.dropWhile Bytes.isDigit)
    let (exp, s) ← exponent? s
    match frac, exp with
    | none, none => (ofInteger? negative (natOfDigits whole)).map (·, s)
    | _, _ =>
      let frac := frac.getD []
      let d ← Binary64.ofDecimal? negative (natOfDigits (whole ++ frac))
        (exp.getD 0 - frac.length)
      some (.float d, s)

def keyword? (word : Bytes) (v : Json) (s : Bytes) : Option (Json × Bytes) :=
  if word.isPrefixOf s then some (v, s.drop word.length) else none

mutual

/-- A value at the start of a text, by its first byte, and the rest. The fuel bounds the number of values, items
and members read. -/
def value? : Nat → Bytes → Option (Json × Bytes)
  | 0, _ => none
  | fuel + 1, s =>
    match skipBlanks s with
    | [] => none
    | b :: r =>
      if b = 34 then (string? r).map fun (t, rest) => (.str t, rest)
      else if b = 91 then
        match skipBlanks r with
        | 93 :: rest => some (.arr [], rest)
        | r' => (items? fuel r').map fun (vs, rest) => (.arr vs, rest)
      else if b = 123 then
        match skipBlanks r with
        | 125 :: rest => some (.obj [], rest)
        | r' => (members? fuel r').map fun (fs, rest) => (object fs, rest)
      else if b = 110 then keyword? (lit "null") .null (b :: r)
      else if b = 116 then keyword? (lit "true") (.bool true) (b :: r)
      else if b = 102 then keyword? (lit "false") (.bool false) (b :: r)
      else number? (b :: r)

def items? : Nat → Bytes → Option (List Json × Bytes)
  | 0, _ => none
  | fuel + 1, s =>
    match value? fuel s with
    | none => none
    | some (v, r) =>
      match skipBlanks r with
      | 44 :: r' => (items? fuel r').map fun (vs, rest) => (v :: vs, rest)
      | 93 :: rest => some ([v], rest)
      | _ => none

def members? : Nat → Bytes → Option (List (Bytes × Json) × Bytes)
  | 0, _ => none
  | fuel + 1, s =>
    match skipBlanks s with
    | 34 :: r =>
      match string? r with
      | none => none
      | some (k, r) =>
        match skipBlanks r with
        | 58 :: r =>
          match value? fuel r with
          | none => none
          | some (v, r) =>
            match skipBlanks r with
            | 44 :: r' => (members? fuel r').map fun (fs, rest) => ((k, v) :: fs, rest)
            | 125 :: rest => some ([(k, v)], rest)
            | _ => none
        | _ => none
    | _ => none

end

def withoutMark : Bytes → Bytes
  | 0xEF :: 0xBB :: 0xBF :: r => r
  | s => s

def read? (s : Bytes) : Option Json :=
  let s := withoutMark s
  match value? (2 * s.length + 2) s with
  | some (v, rest) => if (skipBlanks rest).isEmpty then some v else none
  | none => none

end Lorebook.Json
