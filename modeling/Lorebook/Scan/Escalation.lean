import Lorebook.Bytes.Utf8
import Lorebook.Scan.Activation

set_option autoImplicit false

/-!
Escalation: whether another pass follows. In a recursive scan one follows when there is new content
to scan, or when entries wait for a higher level; otherwise one follows when the window is widened
because too few entries are selected.
-/

namespace Lorebook.Scan

inductive Step where
  | stop (s : State)
  | again (s : State)

def freshContent (s : State) (accepted : List Bytes) : Bytes :=
  Bytes.joinLines (((accepted.map s.entryAt).filter fun e =>
    !e.preventRecursion && !Bytes.isBlank e.content).map (·.content))

/-- The buffer with new content on a line of its own, cut to its last bytes if it is too long. -/
def grown (limit : Nat) (buffer fresh : Bytes) : Bytes :=
  Utf8.tail (if buffer.isEmpty then fresh else buffer ++ lit "\n" ++ fresh) limit

/-- Takes in new content, which opens the next level. -/
def feed (su : Setup) (s : State) (fresh : Bytes) : State :=
  let limit := su.scanner.maxBufferBytes
  let size := (if s.buffer.isEmpty then fresh else s.buffer ++ lit "\n" ++ fresh).length
  let buffer := grown limit s.buffer fresh
  let s := { s with buffer, recursionSteps := s.recursionSteps + 1 }
  let s := if limit < size then
      s.note su (lit "scan buffer truncated to " ++ Bytes.ofNat buffer.length ++ lit " bytes")
    else s
  { s with level := if s.level < su.topLevel then s.level + 1 else s.level }

def nextLevel? (su : Setup) (s : State) : Option Int := su.levels.find? (s.level < ·)

/-- The window after one more message. -/
def widerDepth (su : Setup) (s : State) : Int :=
  Bounded.add (Bounded.add su.baseDepth s.widened) 1

def canWiden (su : Setup) (s : State) : Bool :=
  su.widens && (s.selectedKeys.length : Int) < su.minActivations
    && !(0 < su.maxDepth && su.maxDepth < widerDepth su s)
    && widerDepth su s ≤ su.sources.messages.length

def widen (su : Setup) (s : State) : Step :=
  if canWiden su s then
    .again ({ s with widened := s.widened + 1 }.note su
      (lit "widening scan window to " ++ Bytes.ofInt (widerDepth su s) ++ lit " messages"))
  else .stop s

def escalate (su : Setup) (s : State) (accepted : List Bytes) : Step :=
  let fresh := freshContent s accepted
  if su.recursive && !fresh.isEmpty then
    if su.scanner.maxRecursionSteps < s.recursionSteps + 1 then
      .stop (s.note su (lit "recursion step limit "
        ++ Bytes.ofNat su.scanner.maxRecursionSteps ++ lit " reached"))
    else .again (feed su s fresh)
  else
    match (if su.recursive && !s.buffer.isEmpty then nextLevel? su s else none) with
    | some level => .again { s with level }
    | none => widen su s

end Lorebook.Scan
