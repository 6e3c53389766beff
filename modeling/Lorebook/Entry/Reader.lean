import Lorebook.Directive
import Lorebook.Entry.Directed
import Lorebook.Fields
import Lorebook.KeyList

set_option autoImplicit false

/-!
Reading entries from the objects in which books hold them. Directives in the content are applied and
cut off; those for recursive activation are kept.
-/

namespace Lorebook.Entry

/-- A recursion level: off, on as level 1, or a number above zero. -/
def recursionLevelOfJson? : Json → Option Int
  | .null => none
  | .bool b => some (if b then 1 else 0)
  | v =>
    let word := Bytes.toLower (Bytes.trim v.toText)
    if word = lit "false" ∨ word = lit "0" then some 0
    else if word = lit "true" then some 1
    else Fields.positive? v.toInt?

def inRange (low high n : Int) : Int := if n < low then low else if high < n then high else n

def atLeast (low n : Int) : Int := if n < low then low else n

def contextFlags (v : Json) : ContextParts Bool where
  personaDescription := Fields.bool v
    [lit "matchPersonaDescription", lit "match_persona_description"]
    (lit "match_persona_description") false
  characterDescription := Fields.bool v
    [lit "matchCharacterDescription", lit "match_character_description"]
    (lit "match_character_description") false
  characterPersonality := Fields.bool v
    [lit "matchCharacterPersonality", lit "match_character_personality"]
    (lit "match_character_personality") false
  characterDepthPrompt := Fields.bool v
    [lit "matchCharacterDepthPrompt", lit "match_character_depth_prompt"]
    (lit "match_character_depth_prompt") false
  scenario := Fields.bool v [lit "matchScenario", lit "match_scenario"] (lit "match_scenario") false
  creatorNotes := Fields.bool v [lit "matchCreatorNotes", lit "match_creator_notes"]
    (lit "match_creator_notes") false

def undirected (v : Json) (uid source bookName : Bytes) (logic : SelectiveLogic) : Entry :=
  let keyList (names : List Bytes) := ((Fields.find? v names).map KeyList.ofJson).getD []
  let secondary := keyList [lit "secondary_keys", lit "keysecondary"]
  { uid, source, bookName
    comment := Fields.text v [lit "comment", lit "memo"] [] []
    enabled := match Fields.find? v [lit "disable"] with
      | some d => !d.truthy
      | none => Fields.bool v [lit "enabled"] [] true
    keys := keyList [lit "keys", lit "key"]
    secondaryKeys := secondary
    excludeKeys := keyList [lit "exclude_keys", lit "excludeKeys"]
    selective := ((Fields.find? v [lit "selective"]).map Json.truthy).getD (!secondary.isEmpty)
    selectiveLogic := logic
    useRegex := Fields.bool v [lit "use_regex", lit "useRegex"] (lit "use_regex") false
    caseSensitive := Fields.bool? v [lit "case_sensitive", lit "caseSensitive"]
      (lit "case_sensitive")
    matchWholeWords := Fields.bool? v [lit "match_whole_words", lit "matchWholeWords"]
      (lit "match_whole_words")
    content := Fields.text v [lit "content"] [] []
    constant := Fields.bool v [lit "constant"] [] false
    insertionOrder := Fields.int v
      [lit "insertion_order", lit "order", lit "insertionOrder", lit "priority"] [] 0
    position := ((Fields.find? v [lit "position", lit "pos"]).map Position.ofJson).getD
      .afterCharDefs
    depth := Fields.int v [lit "depth", lit "insert_depth"] [] 0
    role := ((Fields.find? v [lit "role", lit "depth_role"]).map (Role.ofJson .system)).getD .system
    outlet := Fields.text v [lit "outlet", lit "outlet_name", lit "outletName"] [] []
    triggers := ((Fields.at? v [lit "triggers"] (lit "triggers")).map GenerationType.ofJson).getD []
    scanDepth := Fields.positiveInt? v [lit "scanDepth", lit "scan_depth"] (lit "scan_depth")
    scanned := contextFlags v
    ignoreBudget := Fields.bool v [lit "ignoreBudget", lit "ignore_budget"] (lit "ignore_budget")
      false
    useProbability := Fields.bool v [lit "useProbability", lit "use_probability"] [] true
    probability := inRange 0 100 (Fields.int v [lit "probability"] (lit "probability") 100)
    group := (Fields.nonBlank? v [lit "group"] (lit "group")).getD []
    groupOverride := Fields.bool v [lit "groupOverride", lit "group_override"]
      (lit "group_override") false
    groupWeight := atLeast 1
      (Fields.int v [lit "groupWeight", lit "group_weight"] (lit "group_weight") 100)
    useGroupScoring := (Fields.at? v [lit "useGroupScoring", lit "use_group_scoring"]
      (lit "use_group_scoring")).map Json.truthy
    automationId := Fields.text v [lit "automationId", lit "automation_id"] (lit "automation_id") []
    sticky := Fields.positiveInt? v [lit "sticky"] (lit "sticky")
    cooldown := Fields.positiveInt? v [lit "cooldown"] (lit "cooldown")
    delay := Fields.positiveInt? v [lit "delay"] (lit "delay")
    excludeRecursion := Fields.bool v [lit "excludeRecursion", lit "exclude_recursion"]
      (lit "exclude_recursion") false
    preventRecursion := Fields.bool v [lit "preventRecursion", lit "prevent_recursion"]
      (lit "prevent_recursion") false
    delayUntilRecursion :=
      (Fields.at? v [lit "delayUntilRecursion", lit "delay_until_recursion"]
        (lit "delay_until_recursion")).bind recursionLevelOfJson?
    raw := if v.isObject then v else .obj [] }

def logicOfJson (v : Json) : Except Fault SelectiveLogic :=
  match Fields.find? v
      [lit "selective_logic", lit "selectiveLogic", lit "selective_logic_mode"] with
  | some l => SelectiveLogic.ofJson l
  | none => .ok .andAny

def afterDirectives (e : Entry) : Entry :=
  let parsed := Directive.parse e.content
  { e.withDirectives parsed.standard with
    content := parsed.content
    fallbackDirectives := parsed.fallback }

def ownUid? (v : Json) : Option Bytes := (Fields.find? v [lit "uid", lit "id"]).map Json.toText

/-- Reads an entry. The uid is the given one, else the object's own, else `fresh`. -/
def ofJson (v : Json) (uid? : Option Bytes) (fresh source bookName : Bytes) :
    Except Fault Entry :=
  (logicOfJson v).map fun logic =>
    (undirected v ((uid?.or (ownUid? v)).getD fresh) source bookName logic).afterDirectives

end Lorebook.Entry
