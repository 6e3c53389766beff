import Lorebook.Json.Coercion

set_option autoImplicit false

/-!
The arguments of the command line: options with their values, a command, and one more word.
-/

namespace Lorebook.Command

structure Arguments where
  /-- Book files with the sources given before them. -/
  books : List (Bytes × Bytes) := []
  /-- The source for the books that follow. -/
  source : Bytes := lit "global"
  text : Option Bytes := none
  messagesFile : Bytes := []
  forcedFile : Bytes := []
  stateFile : Bytes := []
  scanDepth : Option Int := none
  budget : Option Int := none
  messageCount : Option Int := none
  seed : Option UInt64 := none
  minActivations : Int := 0
  recursion : Int := 3
  strategy : Bytes := lit "sorted_evenly"
  generation : Bytes := lit "normal"
  verbose : Bool := false
  command : Bytes := []
  word : Bytes := []

/-- The ranges in which numbers are read, by the names under which a failure is reported. -/
inductive NumberKind where
  | signed32
  | signed64
  | unsigned64
  deriving DecidableEq, Repr

def NumberKind.name : NumberKind → Bytes
  | signed32 => lit "stoi"
  | signed64 => lit "stoll"
  | unsigned64 => lit "stoull"

/-- Reads a number: blanks, a sign, then digits; anything after them is left alone. A negative
number of the unsigned kind counts from the end of its range. -/
def number? (kind : NumberKind) (s : Bytes) : Option Int :=
  let (negative, r) : Bool × Bytes := match s.dropWhile Bytes.isSpace with
    | 45 :: r => (true, r)
    | 43 :: r => (false, r)
    | r => (false, r)
  let digits := r.takeWhile Bytes.isDigit
  if digits.isEmpty then none
  else
    let m : Int := digits.foldl (fun n b => n * 10 + Bytes.digitValue b) 0
    let n := if negative then -m else m
    match kind with
    | .signed32 => if -2147483648 ≤ n ∧ n ≤ 2147483647 then some n else none
    | .signed64 => if Bounded.min ≤ n ∧ n ≤ Bounded.max then some n else none
    | .unsigned64 => if m < 18446744073709551616 then some (n % 18446744073709551616) else none

inductive Request where
  | run (a : Arguments)
  | usage
  | version
  | unknownOption (name : Bytes)
  | badNumber (kind : NumberKind)

def applyOption? (a : Arguments) (name value : Bytes) : Option (Except NumberKind Arguments) :=
  let number (kind : NumberKind) (f : Int → Arguments) : Option (Except NumberKind Arguments) :=
    match number? kind value with
    | some n => some (.ok (f n))
    | none => some (.error kind)
  if name = lit "--book" then some (.ok { a with books := a.books ++ [(value, a.source)] })
  else if name = lit "--source" then some (.ok { a with source := value })
  else if name = lit "--text" then some (.ok { a with text := some value })
  else if name = lit "--messages" then some (.ok { a with messagesFile := value })
  else if name = lit "--forced" then some (.ok { a with forcedFile := value })
  else if name = lit "--state" then some (.ok { a with stateFile := value })
  else if name = lit "--scan-depth" then number .signed64 fun n => { a with scanDepth := some n }
  else if name = lit "--budget" then number .signed64 fun n => { a with budget := some n }
  else if name = lit "--message-count" then
    number .signed64 fun n => { a with messageCount := some n }
  else if name = lit "--min-activations" then
    number .signed64 fun n => { a with minActivations := n }
  else if name = lit "--seed" then
    number .unsigned64 fun n => { a with seed := some (UInt64.ofNat n.toNat) }
  else if name = lit "--recursion" then number .signed32 fun n => { a with recursion := n }
  else if name = lit "--strategy" then some (.ok { a with strategy := value })
  else if name = lit "--generation" then some (.ok { a with generation := value })
  else none

/-- A word that is no option: the command first, then one more; further ones do not count. -/
def addWord (a : Arguments) (w : Bytes) : Arguments :=
  if a.command.isEmpty then { a with command := w }
  else if a.word.isEmpty then { a with word := w }
  else a

def applyFlag (a : Arguments) (arg : Bytes) : Except Request Arguments :=
  if arg = lit "--verbose" then .ok { a with verbose := true }
  else if arg = lit "-h" ∨ arg = lit "--help" then .error .usage
  else if arg = lit "-v" ∨ arg = lit "--version" then .error .version
  else if arg.head? = some 45 then .error (.unknownOption arg)
  else .ok (addWord a arg)

/-- Reads arguments from left to right; the first that settles the request ends it. -/
def readArguments (a : Arguments) : List Bytes → Request
  | [] => .run a
  | [arg] =>
    match applyFlag a arg with
    | .ok a => .run a
    | .error r => r
  | arg :: value :: rest =>
    match applyOption? a arg value with
    | some (.ok a) => readArguments a rest
    | some (.error kind) => .badNumber kind
    | none =>
      match applyFlag a arg with
      | .ok a => readArguments a (value :: rest)
      | .error r => r

end Lorebook.Command
