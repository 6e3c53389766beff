import Lorebook.Json.Reader
import Lorebook.Pattern

set_option autoImplicit false

/-!
The tokens of a pattern. What a byte means depends on where it stands: in the open, between square
brackets or between braces.
-/

namespace Lorebook.Pattern

inductive Token where
  | byte (b : UInt8)
  | any
  | lineStart
  | lineEnd
  | wordEdge (negated : Bool)
  | cls (c : ByteClass) (negated : Bool)
  | same (group : Nat)
  | many
  | some
  | optional
  | either
  | openGroup
  | openPlain
  | openAhead (negated : Bool)
  | close
  | openSet (negated : Bool)
  | closeSet
  | dash
  | named (name : Bytes)
  | namedClass (name : Bytes)
  | equivalent (name : Bytes)
  | openCount
  | count (n : Nat)
  | comma
  | closeCount
  deriving DecidableEq, Repr

inductive Place where
  | open
  | set
  | count
  deriving DecidableEq, Repr

/-- A token, the place after it and the rest of the pattern. -/
abbrev Step := Token × Place × Bytes

/-- The bytes of two hexadecimal digits at a time, down to the last two. -/
def hexByte? (digits : Bytes) : Option UInt8 :=
  (digits.mapM Json.hexDigit?).map fun ds =>
    UInt8.ofNat (ds.foldl (fun n d => n * 16 + d) 0)

def hexEscape? (place : Place) (n : Nat) (s : Bytes) : Option Step :=
  if (s.take n).length = n then
    (hexByte? (s.take n)).map fun b => (.byte b, place, s.drop n)
  else none

/-- What a letter after a backslash stands for: `0 f n r t v` are control bytes, `B` is any place but
a word edge, `d s w` are classes, and `D S W` all that is outside of them. -/
def letterEscape? (b : UInt8) : Option Token :=
  if b = 48 then .some (.byte 0)
  else if b = 102 then .some (.byte 12)
  else if b = 110 then .some (.byte 10)
  else if b = 114 then .some (.byte 13)
  else if b = 116 then .some (.byte 9)
  else if b = 118 then .some (.byte 11)
  else if b = 66 then .some (.wordEdge true)
  else if b = 100 then .some (.cls .digit false)
  else if b = 68 then .some (.cls .digit true)
  else if b = 115 then .some (.cls .space false)
  else if b = 83 then .some (.cls .space true)
  else if b = 119 then .some (.cls .word false)
  else if b = 87 then .some (.cls .word true)
  else none

/-- What follows a backslash: a letter as above, `b` for a word edge (a backspace between brackets),
`c` and any byte, `x` or `u` and hexadecimal digits, the number of a group, or a byte that stands
for itself. -/
def escape? (place : Place) : Bytes → Option Step
  | [] => none
  | b :: r =>
    match letterEscape? b with
    | .some t => .some (t, place, r)
    | none =>
      if b = 98 then
        .some (if place = .set then .byte 8 else .wordEdge false, place, r)
      else if b = 99 then
        match r with
        | [] => none
        | c :: r' => .some (.byte c, place, r')
      else if b = 120 then hexEscape? place 2 r
      else if b = 117 then hexEscape? place 4 r
      else if Bytes.isDigit b then
        .some (.same (Json.natOfDigits ((b :: r).takeWhile Bytes.isDigit)), place,
          (b :: r).dropWhile Bytes.isDigit)
      else .some (.byte b, place, r)

def parenthesis? : Bytes → Option Step
  | 63 :: 58 :: r => .some (.openPlain, .open, r)
  | 63 :: 61 :: r => .some (.openAhead false, .open, r)
  | 63 :: 33 :: r => .some (.openAhead true, .open, r)
  | 63 :: _ => none
  | r => .some (.openGroup, .open, r)

/-- A token in the open, where `\ ( ) [ { ^ $ . * + ? |` do not stand for themselves. -/
def openToken? (b : UInt8) (r : Bytes) : Option Step :=
  if b = 92 then escape? .open r
  else if b = 40 then parenthesis? r
  else if b = 41 then .some (.close, .open, r)
  else if b = 91 then
    match r with
    | 94 :: r' => .some (.openSet true, .set, r')
    | _ => .some (.openSet false, .set, r)
  else if b = 123 then .some (.openCount, .count, r)
  else if b = 94 then .some (.lineStart, .open, r)
  else if b = 36 then .some (.lineEnd, .open, r)
  else if b = 46 then .some (.any, .open, r)
  else if b = 42 then .some (.many, .open, r)
  else if b = 43 then .some (.some, .open, r)
  else if b = 63 then .some (.optional, .open, r)
  else if b = 124 then .some (.either, .open, r)
  else .some (.byte b, .open, r)

def bracketName? (mark : UInt8) (s : Bytes) : Option (Bytes × Bytes) :=
  match s.dropWhile (· != mark) with
  | _ :: 93 :: r => .some (s.takeWhile (· != mark), r)
  | _ => none

/-- A token between square brackets, where `- ] \` and the pairs `[. [: [=` do not stand for
themselves. -/
def setToken? (b : UInt8) (r : Bytes) : Option Step :=
  if b = 45 then .some (.dash, .set, r)
  else if b = 93 then .some (.closeSet, .open, r)
  else if b = 92 then escape? .set r
  else if b = 91 then
    match r with
    | [] => none
    | c :: r' =>
      if c = 46 then (bracketName? c r').map fun (n, r) => (.named n, .set, r)
      else if c = 58 then (bracketName? c r').map fun (n, r) => (.namedClass n, .set, r)
      else if c = 61 then (bracketName? c r').map fun (n, r) => (.equivalent n, .set, r)
      else .some (.byte b, .set, r)
  else .some (.byte b, .set, r)

def countToken? (b : UInt8) (r : Bytes) : Option Step :=
  if Bytes.isDigit b then
    .some (.count (Json.natOfDigits ((b :: r).takeWhile Bytes.isDigit)), .count,
      (b :: r).dropWhile Bytes.isDigit)
  else if b = 44 then .some (.comma, .count, r)
  else if b = 125 then .some (.closeCount, .open, r)
  else none

def token? (place : Place) (b : UInt8) (r : Bytes) : Option Step :=
  match place with
  | .open => openToken? b r
  | .set => setToken? b r
  | .count => countToken? b r

/-- The tokens from here on; brackets and braces must be closed. Every token takes a byte, so fuel
for every byte is enough. -/
def tokensFrom : Nat → Place → Bytes → Option (List Token)
  | _, place, [] => if place = .open then .some [] else none
  | 0, _, _ :: _ => none
  | fuel + 1, place, b :: r =>
    match token? place b r with
    | none => none
    | .some (t, place, rest) => (tokensFrom fuel place rest).map (t :: ·)

def tokens? (s : Bytes) : Option (List Token) := tokensFrom s.length .open s

end Lorebook.Pattern
