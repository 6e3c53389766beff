import Lorebook.Bytes

set_option autoImplicit false

/-!
UTF-8 in byte texts. Two notions stand side by side. The loose one looks only at the bits that
announce a sequence and at its continuation bytes; `scrub`, `tail` and the count of code points use
it. The strict one, `step`, reads one byte at a time and accepts exactly the sequences of RFC 3629;
`isValid` and `repair` use it.
-/

namespace Lorebook.Utf8

def replacement : Bytes := [0xEF, 0xBF, 0xBD]

def isContinuation (b : UInt8) : Bool := b &&& 0xC0 == 0x80

/-- How many bytes a first byte announces, 0 for a byte that starts no sequence. -/
def announced (b : UInt8) : Nat :=
  if b < 0x80 then 1
  else if b &&& 0xE0 == 0xC0 then 2
  else if b &&& 0xF0 == 0xE0 then 3
  else if b &&& 0xF8 == 0xF0 then 4
  else 0

/-- The length of the sequence at the start of a text: the announced number of bytes, if all but
the first of them are there and are continuation bytes, else 0. -/
def sequenceLength : Bytes → Nat
  | [] => 0
  | b :: r =>
    let n := announced b
    if n = 0 then 0
    else if (r.take (n - 1)).length = n - 1 ∧ (r.take (n - 1)).all isContinuation then n
    else 0

def sequenceLengths : Bytes → List Nat
  | [] => []
  | b :: r => sequenceLength (b :: r) :: sequenceLengths r

/-- Copies `owed` more bytes of the current sequence, then replaces each byte at which no sequence
starts. -/
def scrubFrom (filler : Bytes) : Nat → Bytes → Bytes
  | _, [] => []
  | 0, b :: r =>
    match sequenceLength (b :: r) with
    | 0 => filler ++ scrubFrom filler 0 r
    | n + 1 => b :: scrubFrom filler n r
  | n + 1, b :: r => b :: scrubFrom filler n r

def scrub (s : Bytes) (filler : Bytes) : Bytes := scrubFrom filler 0 s

/-- The number of bytes that are no continuation bytes: one for each code point. -/
def codePoints (s : Bytes) : Nat := s.countP (!isContinuation ·)

/-- The last `limit` bytes of a longer text, less a sequence that the cut goes through. -/
def tail (s : Bytes) (limit : Nat) : Bytes :=
  if s.length ≤ limit then s else scrub (s.drop (s.length - limit)) []

/-- What a started sequence still needs: the number of bytes, and the range of the next one. -/
structure Owed where
  bytes : Nat
  low : UInt8
  high : UInt8
  deriving DecidableEq, Repr

inductive Progress where
  | complete
  | more (owed : Owed)
  | refused
  deriving DecidableEq, Repr

def first (b : UInt8) : Progress :=
  if b < 0x80 then .complete
  else if b < 0xC2 then .refused
  else if b < 0xE0 then .more ⟨1, 0x80, 0xBF⟩
  else if b = 0xE0 then .more ⟨2, 0xA0, 0xBF⟩
  else if b = 0xED then .more ⟨2, 0x80, 0x9F⟩
  else if b < 0xF0 then .more ⟨2, 0x80, 0xBF⟩
  else if b = 0xF0 then .more ⟨3, 0x90, 0xBF⟩
  else if b < 0xF4 then .more ⟨3, 0x80, 0xBF⟩
  else if b = 0xF4 then .more ⟨3, 0x80, 0x8F⟩
  else .refused

def next (owed : Owed) (b : UInt8) : Progress :=
  if owed.low ≤ b ∧ b ≤ owed.high then
    if owed.bytes ≤ 1 then .complete else .more ⟨owed.bytes - 1, 0x80, 0xBF⟩
  else .refused

def step : Option Owed → UInt8 → Progress
  | none, b => first b
  | some owed, b => next owed b

def isValidFrom : Option Owed → Bytes → Bool
  | owed, [] => owed.isNone
  | owed, b :: r =>
    match step owed b with
    | .complete => isValidFrom none r
    | .more o => isValidFrom (some o) r
    | .refused => false

/-- Whether a text is UTF-8 as RFC 3629 has it. -/
def isValid (s : Bytes) : Bool := isValidFrom none s

def repairFrom : Option Owed → Bytes → Bytes → Bytes
  | none, _, [] => []
  | some _, _, [] => replacement
  | owed, seen, b :: r =>
    match step owed b with
    | .complete => seen.reverse ++ b :: repairFrom none [] r
    | .more o => repairFrom (some o) (b :: seen) r
    | .refused =>
      match owed with
      | none => replacement ++ repairFrom none [] r
      | some _ =>
        match first b with
        | .complete => replacement ++ b :: repairFrom none [] r
        | .more o => replacement ++ repairFrom (some o) [b] r
        | .refused => replacement ++ replacement ++ repairFrom none [] r

/-- Puts one replacement character for each longest start of a sequence that does not go on, and
for each byte that starts none. -/
def repair (s : Bytes) : Bytes := repairFrom none [] s

inductive Flaw where
  /-- The byte at this place cannot stand there. -/
  | invalid (place : Nat) (byte : UInt8)
  /-- The text ends within a sequence; this is its last byte. -/
  | incomplete (last : UInt8)
  deriving DecidableEq, Repr

def flawFrom (owed : Option Owed) (place : Nat) (last : UInt8) : Bytes → Option Flaw
  | [] => if owed.isNone then none else some (.incomplete last)
  | b :: r =>
    match step owed b with
    | .complete => flawFrom none (place + 1) b r
    | .more o => flawFrom (some o) (place + 1) b r
    | .refused => some (.invalid place b)

def flaw? (s : Bytes) : Option Flaw := flawFrom none 0 0 s

def encode (c : Nat) : Bytes :=
  if c < 0x80 then [UInt8.ofNat c]
  else if c < 0x800 then [UInt8.ofNat (0xC0 + c / 64), UInt8.ofNat (0x80 + c % 64)]
  else if c < 0x10000 then
    [UInt8.ofNat (0xE0 + c / 4096), UInt8.ofNat (0x80 + c / 64 % 64), UInt8.ofNat (0x80 + c % 64)]
  else
    [UInt8.ofNat (0xF0 + c / 262144), UInt8.ofNat (0x80 + c / 4096 % 64),
     UInt8.ofNat (0x80 + c / 64 % 64), UInt8.ofNat (0x80 + c % 64)]

end Lorebook.Utf8
