import Lorebook.Scan.Activation

set_option autoImplicit false

/-!
Inclusion groups: of the candidates activated in a pass that share a group one is to remain. Sticky
ones win; a group that has its winner from an earlier pass takes no more; then scores may thin out
the rest, and an override or a weighted draw decides.
-/

namespace Lorebook.Scan

structure Draw where
  candidates : Candidates
  removed : List Bytes := []
  random : Random

namespace Draw

def drop (d : Draw) (reason : DropReason) (key : Bytes) : Draw :=
  if key ∈ d.removed then d
  else { d with
    candidates := d.candidates.setFate key (.dropped reason)
    removed := key :: d.removed }

def dropAll (d : Draw) (reason : DropReason) (keys : List Bytes) : Draw :=
  keys.foldl (fun d k => d.drop reason k) d

def alive (d : Draw) (members : List Bytes) : List Bytes := members.filter (· ∉ d.removed)

end Draw

def addMember (key name : Bytes) : Table (List Bytes) → Table (List Bytes)
  | [] => [(name, [key])]
  | (n, ks) :: gs => if n = name then (n, ks ++ [key]) :: gs else (n, ks) :: addMember key name gs

/-- The groups of some candidates with their members, in order of appearance. A candidate that names
a group twice is a member twice. -/
def groupsOf (s : State) (keys : List Bytes) : Table (List Bytes) :=
  keys.foldl (fun gs k => (s.entryAt k).groupNames.foldl (fun gs n => addMember k n gs) gs) []

/-- The first of the members with an override and the highest insertion order among those. -/
def overrideWinner? (entry : Bytes → Entry) (members : List Bytes) : Option Bytes :=
  members.foldl (fun best k =>
    if !(entry k).groupOverride then best
    else match best with
      | none => some k
      | some b => if (entry b).insertionOrder < (entry k).insertionOrder then some k else some b)
    none

/-- The first member at which the running sum of weights reaches the roll, else the last. -/
def drawnMember (weight : Bytes → Int) (roll running : Float) (last : Bytes) : List Bytes → Bytes
  | [] => last
  | k :: ks =>
    let running := running + Float.ofInt (weight k)
    if roll ≤ running then k else drawnMember weight roll running last ks

def winner (entry : Bytes → Entry) (members : List Bytes) (r : Random) : Bytes × Random :=
  let first := members.headD []
  match overrideWinner? entry members with
  | some k => (k, r)
  | none =>
    let weight (k : Bytes) : Int := (entry k).groupWeight
    let total := members.foldl (fun n k => Bounded.add n (weight k)) 0
    if 0 < total then
      let (u, r) := r.next
      (drawnMember weight (u * Float.ofInt total) 0 (members.getLastD first) members, r)
    else (first, r)

def groupSticky (su : Setup) (s : State) (key : Bytes) : Bool :=
  su.stickyActive key || (s.candidates.find? key).any (·.kind = .sticky)

def scoreLosers (su : Setup) (s : State) (members : List Bytes) : List Bytes :=
  let score (k : Bytes) : Int := su.scanner.score (s.entryAt k) (textFor su s (s.entryAt k))
  let best := (members.map score).foldl (fun a b => if a < b then b else a) 0
  members.filter fun k =>
    (s.entryAt k).useGroupScoring.getD su.groupScoring && score k < best

/-- Resolves one group. Neither the entries nor the kinds of candidates change here, so they are
looked up in the state `s` before the groups. -/
def resolveGroup (su : Setup) (s : State) (d : Draw) (name : Bytes) (all : List Bytes) : Draw :=
  let members := d.alive all
  if members.isEmpty then d
  else if members.any (groupSticky su s) then
    d.dropAll .groupStickyLoser (members.filter (!groupSticky su s ·))
  else if name ∈ s.selectedGroups then d.dropAll .groupAlreadyActivated members
  else
    let scoring := su.groupScoring
      || members.any fun k => (s.entryAt k).useGroupScoring.getD false
    let d := if scoring then d.dropAll .groupScoreLoser (scoreLosers su s members) else d
    let members := d.alive members
    if members.length ≤ 1 then d
    else
      let (best, random) := winner s.entryAt members d.random
      { d with random }.dropAll .groupLoser (members.filter (· ≠ best))

def resolveGroups (su : Setup) (s : State) (keys : List Bytes) : State × List Bytes :=
  let d := (groupsOf s keys).foldl (fun d (name, members) => resolveGroup su s d name members)
    { candidates := s.candidates, random := s.random }
  ({ s with candidates := d.candidates, random := d.random }, d.alive keys)

end Lorebook.Scan
