import Lorebook.Scan.Setup

set_option autoImplicit false

/-!
Activation: which entries come up in a pass, and as what. An entry is considered unless it has been
selected, has failed its roll, or is held back; it is then activated because it is forced, constant
or sticky, or because its keys match.
-/

namespace Lorebook.Scan

def levelOpen (su : Setup) (s : State) (e : Entry) : Bool :=
  !e.delaysUntilRecursion || (passKind su s = .recursive && e.recursionLevel ≤ s.level)

def eligible (su : Setup) (s : State) (e : Entry) : Bool :=
  let sticky := su.stickyActive e.key
  e.enabled
    && !(e.key ∈ s.selectedKeys || e.key ∈ s.failedKeys)
    && !su.effects.delayActive e
    && (sticky ||
      (!su.effects.cooldownActive e.key
        && !(passKind su s = .recursive && e.excludeRecursion)
        && levelOpen su s e))

def clockAllows (clock : Int) (e : Entry) : Bool :=
  !(e.activateOnlyAfter.any (clock < ·))
    && !(e.activateOnlyEvery.any fun n => 0 < n && clock % n != 0)

def keywordMatch? (su : Setup) (e : Entry) (text : Bytes) : Option (List Bytes × List Bytes) :=
  if e.dontActivate && !e.constant then none
  else if !clockAllows su.clock e then none
  else if !(Scanner.matching (su.scanner.excludeOptions e) e.excludeKeys text).isEmpty then none
  else
    let o := su.scanner.keyOptions e
    let primary := Scanner.matching o e.keys text
    let secondary := if e.selective then Scanner.matching o e.secondaryKeys text else []
    if primary.isEmpty then none
    else if e.selective && !e.secondaryKeys.isEmpty
        && !e.selectiveLogic.passes secondary.length e.secondaryKeys.length then none
    else some (primary, secondary)

inductive Trigger where
  | forced (record : Json)
  | constant
  | sticky
  | keys (primary secondary : List Bytes)
  deriving DecidableEq

def trigger? (su : Setup) (s : State) (e : Entry) : Option Trigger :=
  match su.forced.find? e with
  | some o => some (.forced o)
  | none =>
    if e.constant then some .constant
    else if su.stickyActive e.key then some .sticky
    else (keywordMatch? su e (textFor su s e)).map fun (p, q) => .keys p q

def State.estimate (s : State) (text : Bytes) : Int × State :=
  let (n, estimator) := s.estimator.estimate text
  (if n < 0 then 0 else n, { s with estimator })

def State.renew (s : State) (key : Bytes) (kind : ActivationKind) (variant : Entry)
    (primary secondary : List Bytes) : State :=
  let (tokens, s) := s.estimate variant.content
  match s.candidates.find? key with
  | some _ =>
    { s with
      candidates := s.candidates.update key fun c => { c with entry := variant, kind, tokens } }
  | none =>
    { s with candidates := s.candidates ++
        [{ key, entry := variant, matchedPrimary := primary, matchedSecondary := secondary, kind,
           tokens }] }

/-- Makes an entry a candidate as it is; of one that is there only the kind changes. -/
def State.keep (s : State) (kind : ActivationKind) (e : Entry) (mark : Bytes) : State :=
  match s.candidates.find? e.key with
  | some _ => { s with candidates := s.candidates.update e.key fun c => { c with kind } }
  | none => s.renew e.key kind e [mark] []

def keywordKind (k : PassKind) : ActivationKind :=
  if k = .recursive then .recursive else .direct

def keywordVariant (k : PassKind) (e : Entry) : Entry :=
  if k = .recursive then e.recursiveVariant else e

def State.enlist (s : State) (kind : PassKind) (e : Entry) : Trigger → State
  | .forced o => s.renew e.key .forced (e.overridden o) [lit "<forced>"] []
  | .constant => s.keep .constant e (lit "<constant>")
  | .sticky => s.keep .sticky e (lit "<sticky>")
  | .keys primary secondary =>
    s.renew e.key (keywordKind kind) (keywordVariant kind e) primary secondary

def activated (su : Setup) (s : State) : List (Entry × Trigger) :=
  su.entries.filterMap fun e =>
    if eligible su s e then (trigger? su s e).map (e, ·) else none

def activate (su : Setup) (s : State) : State × List Bytes :=
  let found := activated su s
  (found.foldl (fun s' (e, t) => s'.enlist (passKind su s) e t) s, found.map (·.1.key))

def State.entryAt (s : State) (key : Bytes) : Entry :=
  ((s.candidates.find? key).map (·.entry)).getD {}

/-- Sticky entries first, then by decreasing insertion order, by book and by uid. -/
def entryLe (su : Setup) (a b : Entry) : Bool :=
  let sa := su.stickyActive a.key
  let sb := su.stickyActive b.key
  if sa != sb then sa
  else if a.insertionOrder ≠ b.insertionOrder then b.insertionOrder < a.insertionOrder
  else if a.bookName ≠ b.bookName then a.bookName < b.bookName
  else a.uid ≤ b.uid

def ordered (su : Setup) (s : State) (keys : List Bytes) : List Bytes :=
  let rows := keys.map fun k => (k, s.entryAt k)
  (sortBy (fun a b => entryLe su a.2 b.2) rows).map (·.1)

end Lorebook.Scan
