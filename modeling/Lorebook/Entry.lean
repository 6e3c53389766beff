import Lorebook.Vocabulary

set_option autoImplicit false

/-!
An entry: one snippet of lore with everything that governs its activation.
-/

namespace Lorebook

/-- One thing for each text about character and persona that an entry may ask to be scanned. -/
structure ContextParts (α : Type) where
  personaDescription : α
  characterDescription : α
  characterPersonality : α
  characterDepthPrompt : α
  scenario : α
  creatorNotes : α
  deriving DecidableEq, Repr

namespace ContextParts

def toList {α : Type} (p : ContextParts α) : List α :=
  [p.personaDescription, p.characterDescription, p.characterPersonality, p.characterDepthPrompt,
   p.scenario, p.creatorNotes]

def fill {α : Type} (a : α) : ContextParts α := ⟨a, a, a, a, a, a⟩

def chosen (flags : ContextParts Bool) (texts : ContextParts Bytes) : List Bytes :=
  (flags.toList.zip texts.toList).filterMap fun (b, s) => if b then some s else none

end ContextParts

structure Entry where
  uid : Bytes := []
  /-- Empty for a book without a name. -/
  bookName : Bytes := []
  source : Bytes := []
  comment : Bytes := []
  keys : List Bytes := []
  secondaryKeys : List Bytes := []
  excludeKeys : List Bytes := []
  selective : Bool := false
  selectiveLogic : SelectiveLogic := .andAny
  useRegex : Bool := false
  /-- Unset: as the engine has it. -/
  caseSensitive : Option Bool := none
  matchWholeWords : Option Bool := none
  content : Bytes := []
  position : Position := .afterCharDefs
  /-- Where the entry goes if its position is at a depth. -/
  depth : Int := 0
  role : Role := .system
  outlet : Bytes := []
  insertionOrder : Int := 0
  enabled : Bool := true
  constant : Bool := false
  dontActivate : Bool := false
  ignoreOnMaxContext : Bool := false
  scanDepth : Option Int := none
  /-- The generation types for which the entry is there; none for all of them. -/
  triggers : List GenerationType := []
  activateOnlyAfter : Option Int := none
  activateOnlyEvery : Option Int := none
  ignoreBudget : Bool := false
  useProbability : Bool := true
  /-- In percent. -/
  probability : Int := 100
  scanned : ContextParts Bool := .fill false
  /-- Names of inclusion groups with commas between them. -/
  group : Bytes := []
  groupOverride : Bool := false
  groupWeight : Int := 100
  useGroupScoring : Option Bool := none
  automationId : Bytes := []
  /-- In messages, as cooldown and delay. -/
  sticky : Option Int := none
  cooldown : Option Int := none
  delay : Option Int := none
  excludeRecursion : Bool := false
  preventRecursion : Bool := false
  /-- The recursion level that the entry waits for; zero and unset for none. -/
  delayUntilRecursion : Option Int := none
  fallbackDirectives : Table Json := []
  raw : Json := .obj []
  deriving DecidableEq

namespace Entry

def scansContext (e : Entry) : Bool := e.scanned.toList.any id

def recursionLevel (e : Entry) : Int := (e.delayUntilRecursion.filter (0 < ·)).getD 0

def delaysUntilRecursion (e : Entry) : Bool := 0 < e.recursionLevel

def triggeredBy (e : Entry) (g : GenerationType) : Bool := e.triggers.isEmpty || g ∈ e.triggers

def groupNames (e : Entry) : List Bytes := Bytes.trimmedPieces 44 e.group

/-- The book's name, trimmed, and the uid, with a point between them. -/
def worldKey (e : Entry) : Bytes :=
  let book := Bytes.trim e.bookName
  (if book.isEmpty then lit "unnamed" else book) ++ lit "." ++ e.uid

def key (e : Entry) : Bytes :=
  (if e.source.isEmpty then lit "unknown" else e.source) ++ lit ":" ++ e.worldKey

end Entry
end Lorebook
