import Lorebook.Fault
import Lorebook.Tokens

set_option autoImplicit false

/-!
What holds for all scans: defaults for matching keys, limits for recursion, and the way to count
tokens.
-/

namespace Lorebook

/-- Settings as a caller gives them. -/
structure Settings where
  matchWholeWords : Bool := true
  caseSensitive : Bool := false
  maxRecursionSteps : Int := 3
  maxBufferBytes : Nat := 1000000
  verbose : Bool := false
  estimator : Option Estimator := some .plain

/-- Settings that have been checked. -/
structure Scanner where
  matchWholeWords : Bool
  caseSensitive : Bool
  /-- At most `Scanner.recursionCap`. -/
  maxRecursionSteps : Nat
  maxBufferBytes : Nat
  verbose : Bool
  estimator : Estimator

namespace Scanner

def recursionCap : Nat := 10

def recursionSteps (n : Int) : Nat := Nat.min n.toNat recursionCap

def ofSettings (s : Settings) : Except Fault Scanner :=
  match s.estimator with
  | none => .error .noEstimator
  | some estimator =>
    if s.maxBufferBytes = 0 then .error .emptyScanBuffer
    else .ok {
      matchWholeWords := s.matchWholeWords
      caseSensitive := s.caseSensitive
      maxRecursionSteps := recursionSteps s.maxRecursionSteps
      maxBufferBytes := s.maxBufferBytes
      verbose := s.verbose
      estimator }

end Scanner
end Lorebook
