set_option autoImplicit false

/-!
Texts as sequences of bytes: trimming, lines, pieces, words and the decimal digits of integers.
Nothing promises that a text is valid UTF-8.
-/

namespace Lorebook

abbrev Bytes := List UInt8

instance : LawfulBEq Bytes where
  eq_of_beq := LawfulBEq.eq_of_beq
  rfl := ReflBEq.rfl

def lit (s : String) : Bytes := s.toList.map fun c => UInt8.ofNat c.toNat

namespace Bytes

def ofChar (c : Char) : UInt8 := UInt8.ofNat c.toNat

theorem forall_byte {p : UInt8 → Prop} : (∀ b, p b) ↔ ∀ n : Fin 256, p (UInt8.ofNat n) := by
  constructor
  · exact fun h n => h (UInt8.ofNat n)
  · intro h b
    simpa using h ⟨b.toNat, b.toNat_lt⟩

instance {p : UInt8 → Prop} [DecidablePred p] : Decidable (∀ b, p b) :=
  decidable_of_iff _ forall_byte.symm

def newline : UInt8 := 10

def isSpace (b : UInt8) : Bool := b == 32 || (9 ≤ b && b ≤ 13)

def isUpper (b : UInt8) : Bool := 65 ≤ b && b ≤ 90

def isLower (b : UInt8) : Bool := 97 ≤ b && b ≤ 122

def isDigit (b : UInt8) : Bool := 48 ≤ b && b ≤ 57

def isWord (b : UInt8) : Bool := isLower b || isUpper b || isDigit b || b == 95

/-- What trimming removes: whitespace and NUL. -/
def isPad (b : UInt8) : Bool := isSpace b || b == 0

def toLowerByte (b : UInt8) : UInt8 := if isUpper b then b + 32 else b

def toUpperByte (b : UInt8) : UInt8 := if isLower b then b - 32 else b

def toLower (s : Bytes) : Bytes := s.map toLowerByte

def isAscii (s : Bytes) : Bool := s.all (· < 128)

def hasSpace (s : Bytes) : Bool := s.any isSpace

def isDigits (s : Bytes) : Bool := !s.isEmpty && s.all isDigit

def dropEnding (p : UInt8 → Bool) (s : Bytes) : Bytes := (s.reverse.dropWhile p).reverse

def trim (s : Bytes) : Bytes := dropEnding isPad (s.dropWhile isPad)

/-- Removes whitespace, but no NUL, at the end. -/
def trimEnd (s : Bytes) : Bytes := dropEnding isSpace s

def isBlank (s : Bytes) : Bool := s.all isPad

theorem dropWhile_eq_nil_iff (p : UInt8 → Bool) (s : Bytes) :
    s.dropWhile p = [] ↔ ∀ b ∈ s, p b = true := by
  induction s with
  | nil => simp
  | cons b r ih => by_cases h : p b = true <;> simp [h, ih]

theorem dropEnding_eq_nil_iff (p : UInt8 → Bool) (s : Bytes) :
    dropEnding p s = [] ↔ ∀ b ∈ s, p b = true := by
  rw [dropEnding, List.reverse_eq_nil_iff, dropWhile_eq_nil_iff]
  simp

theorem trim_eq_nil_iff (s : Bytes) : trim s = [] ↔ isBlank s = true := by
  constructor
  · intro h
    have h' := (dropEnding_eq_nil_iff _ _).1 h
    simp only [isBlank, List.all_eq_true]
    intro b hb
    rw [← List.takeWhile_append_dropWhile (p := isPad) (l := s)] at hb
    rcases List.mem_append.1 hb with hb | hb
    · exact List.all_eq_true.1 List.all_takeWhile b hb
    · exact h' b hb
  · intro h
    have : s.dropWhile isPad = [] := (dropWhile_eq_nil_iff _ _).2 (List.all_eq_true.1 h)
    simp [trim, this, dropEnding]

/-- The lines of a text: a line feed ends a line, and no line follows the last one. -/
def lines : Bytes → List Bytes
  | [] => []
  | b :: r =>
    if b = newline then [] :: lines r
    else match lines r with
      | [] => [[b]]
      | l :: ls => (b :: l) :: ls

def fullLines : Bytes → List Bytes
  | [] => []
  | b :: r =>
    if b = newline then [b] :: fullLines r
    else match fullLines r with
      | [] => [[b]]
      | l :: ls => (b :: l) :: ls

theorem flatten_fullLines (s : Bytes) : (fullLines s).flatten = s := by
  induction s with
  | nil => rfl
  | cons b r ih =>
    unfold fullLines
    split
    · simp [ih]
    · split
      · next h => rw [h] at ih; simp at ih; simp [← ih]
      · next l ls h => rw [h] at ih; simp at ih; simp [ih]

/-- The pieces between the occurrences of a delimiter; there is always one piece at least. -/
def pieces (delim : UInt8) : Bytes → List Bytes
  | [] => [[]]
  | b :: r =>
    if b = delim then [] :: pieces delim r
    else match pieces delim r with
      | [] => [[b]]
      | p :: ps => (b :: p) :: ps

def trimmedPieces (delim : UInt8) (s : Bytes) : List Bytes :=
  ((pieces delim s).map trim).filter (!·.isEmpty)

def join (sep : Bytes) (parts : List Bytes) : Bytes := List.intercalate sep parts

theorem join_cons (sep x : Bytes) (xs : List Bytes) :
    join sep (x :: xs) = x ++ if xs = [] then [] else sep ++ join sep xs := by
  cases xs with
  | nil => simp [join]
  | cons y ys => simp [join, List.intercalate]

def joinLines (parts : List Bytes) : Bytes := join [newline] parts

def contains (needle : Bytes) : Bytes → Bool
  | [] => needle.isEmpty
  | b :: r => needle.isPrefixOf (b :: r) || contains needle r

def wordEndsBefore : Bytes → Bool
  | [] => true
  | b :: _ => !isWord b

/-- Searches a word from here on; `open` says whether a word may start here. -/
def containsWordFrom (needle : Bytes) (start : Bool) : Bytes → Bool
  | [] => false
  | b :: r =>
    (start && needle.isPrefixOf (b :: r) && wordEndsBefore ((b :: r).drop needle.length))
      || containsWordFrom needle (!isWord b) r

/-- Whether some occurrence of `needle` has on each side an end of the text or a byte that is no
word byte. The empty word occurs in every text. -/
def containsWord (needle hay : Bytes) : Bool :=
  needle.isEmpty || containsWordFrom needle true hay

def ofNat (n : Nat) : Bytes := (Nat.toDigits 10 n).map ofChar

def ofInt (n : Int) : Bytes :=
  if n < 0 then ofChar '-' :: ofNat n.natAbs else ofNat n.natAbs

def digitValue (b : UInt8) : Nat := b.toNat - 48

end Bytes
end Lorebook
