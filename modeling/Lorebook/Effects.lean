import Lorebook.Entry
import Lorebook.Json.Reader
import Lorebook.Variables

set_option autoImplicit false

/-!
Timed effects on a clock that counts messages. A selected entry may stay active for a while
(sticky), and be kept out for a while (cooldown) after its selection or once its sticky time ends;
an entry may also wait until the clock has reached a certain count (delay).

Sticky and cooldown records are kept as one JSON text among the variables. What is stored there is
advisory: a text that cannot be read is dropped with a warning.
-/

namespace Lorebook

inductive EffectKind where
  | sticky
  | cooldown
  deriving DecidableEq, Repr

namespace EffectKind

def name : EffectKind → Bytes
  | sticky => lit "sticky"
  | cooldown => lit "cooldown"

def duration (k : EffectKind) (e : Entry) : Option Int :=
  match k with
  | sticky => e.sticky
  | cooldown => e.cooldown

end EffectKind

structure Effects where
  /-- The message count. -/
  clock : Int
  entries : List Entry
  /-- The key as given, and as trimmed. -/
  stateKey : Bytes
  slot : Bytes
  /-- A dry run stores nothing. -/
  dryRun : Bool
  /-- The records, and whatever else the stored object holds. -/
  state : Json
  activeSticky : List Bytes := []
  activeCooldown : List Bytes := []
  deriving DecidableEq

namespace Effects

def defaultKey : Bytes := lit "__lorekit__timed_effects"

def format : Json := .arr [.int 1, .int 0]

def emptyState : Json :=
  Json.object [(lit "format", format), (lit "sticky", .obj []), (lit "cooldown", .obj [])]

def compatible (major minor : Int) : Bool := major == 1 && minor ≤ 0

/-- Whether a stored version is a pair of integers that can be read. They are taken as signed
32-bit numbers. -/
def formatReadable : Json → Bool
  | .arr [.int a, .int b] => compatible (Bounded.wrap32 a) (Bounded.wrap32 b)
  | _ => false

/-- The state that a stored text stands for, with a warning where the text is dropped. -/
def loadState (stateKey : Bytes) (stored : Option Bytes) : Json × List Bytes :=
  match stored with
  | none => (emptyState, [])
  | some text =>
    if Bytes.isBlank text then (emptyState, [])
    else
      match Json.read? text with
      | some (.obj fs) =>
        match Table.get? (lit "format") fs with
        | none => (.obj fs, [])
        | some f =>
          if formatReadable f then (.obj fs, [])
          else
            (emptyState,
              [lit "[TimedEffects] Incompatible state format " ++ f.compact ++ lit " at '"
                ++ stateKey ++ lit "', starting fresh\n"])
      | _ =>
        (emptyState, [lit "[TimedEffects] Discarding unreadable state at '" ++ stateKey
          ++ lit "'\n"])

def start (clock : Int) (entries : List Entry) (vars : Variables) (stateKey : Bytes)
    (dryRun : Bool) : Except Fault (Effects × List Bytes) :=
  (Variables.key stateKey).map fun slot =>
    let (state, warnings) := loadState stateKey (Table.get? slot vars)
    ({ clock, entries, stateKey, slot, dryRun, state }, warnings)

def records (state : Json) (k : EffectKind) : Table Json :=
  match state.get? k.name with
  | some (.obj rs) => rs
  | _ => []

def setRecords (state : Json) (k : EffectKind) (rs : Table Json) : Json :=
  state.setField k.name (.obj rs)

def withTables (state : Json) : Json :=
  let state := setRecords state .sticky (records state .sticky)
  setRecords state .cooldown (records state .cooldown)

def record (clock duration : Int) (isProtected : Bool) : Json :=
  Json.object [
    (lit "start", .int clock),
    (lit "end", .int (Bounded.add clock duration)),
    (lit "protected", .bool isProtected)]

def recordInt (data : Json) (name : Bytes) : Int := ((data.get? name).bind Json.toInt?).getD 0

/-- Anything but null and false protects a record. -/
def isProtected (data : Json) : Bool :=
  match data.get? (lit "protected") with
  | none | some .null => false
  | some (.bool b) => b
  | some _ => true

inductive Verdict where
  | dropped
  /-- It is dropped because its time is over. -/
  | ended (e : Entry)
  /-- It stays, but no entry of this evaluation has its key. -/
  | waiting
  | active
  deriving DecidableEq

/-- A record that is not protected counts only once the clock has moved on from its start. -/
def judge (clock : Int) (entries : List Entry) (k : EffectKind) (key : Bytes) (data : Json) :
    Verdict :=
  if data.isObject = false then .dropped
  else if clock ≤ recordInt data (lit "start") ∧ isProtected data = false then .dropped
  else
    let passed := decide (recordInt data (lit "end") ≤ clock)
    match entries.find? (·.key = key) with
    | none => if passed then .dropped else .waiting
    | some e =>
      if (k.duration e).isNone then .dropped else if passed then .ended e else .active

def Verdict.keeps : Verdict → Bool
  | .waiting | .active => true
  | .dropped | .ended _ => false

def Verdict.endedEntry? : Verdict → Option Entry
  | .ended e => some e
  | _ => none

def judged (fx : Effects) (k : EffectKind) : List (Bytes × Json × Verdict) :=
  (records fx.state k).map fun (key, data) => (key, data, judge fx.clock fx.entries k key data)

def kept (rows : List (Bytes × Json × Verdict)) : Table Json :=
  rows.filterMap fun (key, data, v) => if v.keeps then some (key, data) else none

def activeKeys (rows : List (Bytes × Json × Verdict)) : List Bytes :=
  rows.filterMap fun (key, _, v) => if v = .active then some key else none

/-- Starts the cooldown of an entry whose sticky time is over, in place of any earlier record. -/
def coolDown (fx : Effects) (e : Entry) : Effects :=
  match e.cooldown with
  | none => fx
  | some n =>
    { fx with
      state := setRecords fx.state .cooldown
        (Table.insert e.key (record fx.clock n true) (records fx.state .cooldown))
      activeCooldown := fx.activeCooldown ++ [e.key] }

def checkSticky (fx : Effects) : Effects :=
  let rows := fx.judged .sticky
  let fx := { fx with
    state := setRecords fx.state .sticky (kept rows)
    activeSticky := activeKeys rows }
  (rows.filterMap fun (_, _, v) => v.endedEntry?).foldl coolDown fx

def checkCooldown (fx : Effects) : Effects :=
  let rows := fx.judged .cooldown
  { fx with
    state := setRecords fx.state .cooldown (kept rows)
    activeCooldown := fx.activeCooldown ++ activeKeys rows }

def stored (state : Json) : Bytes := state.repaired.compact

def save (fx : Effects) (vars : Variables) : Effects × Variables :=
  let state := fx.state.setField (lit "format") format
  ({ fx with state }, Table.insert fx.slot (stored state) vars)

/-- Sets the records against the clock: finds the active effects, drops what is over, and stores the
rest. -/
def check (fx : Effects) (vars : Variables) : Effects × Variables :=
  let fx := { fx with state := withTables fx.state, activeSticky := [], activeCooldown := [] }
  let fx := fx.checkSticky.checkCooldown
  if fx.dryRun then (fx, vars) else fx.save vars

def stickyActive (fx : Effects) (key : Bytes) : Bool := key ∈ fx.activeSticky

def cooldownActive (fx : Effects) (key : Bytes) : Bool := key ∈ fx.activeCooldown

def delayActive (fx : Effects) (e : Entry) : Bool := e.delay.any (fx.clock < ·)

/-- Starts an effect of an entry that has it, unless there is a record. -/
def started (clock : Int) (k : EffectKind) (state : Json) (e : Entry) : Json :=
  match k.duration e with
  | none => state
  | some n =>
    let rs := records state k
    if Table.contains e.key rs then state
    else setRecords state k (Table.insert e.key (record clock n false) rs)

def commit (fx : Effects) (selected : List Entry) (vars : Variables) : Effects × Variables :=
  if fx.dryRun then (fx, vars)
  else
    let state := selected.foldl
      (fun state e => started fx.clock .cooldown (started fx.clock .sticky state e) e)
      (withTables fx.state)
    { fx with state }.save vars

end Effects
end Lorebook
