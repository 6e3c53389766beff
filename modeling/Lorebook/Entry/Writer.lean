import Lorebook.Entry
import Lorebook.Json

set_option autoImplicit false

/-!
Writing entries as objects with one name for each field.
-/

namespace Lorebook.Entry

def recursionLevelToJson : Option Int → Json
  | none => .null
  | some n => if n = 0 then .bool false else .int n

def toJson (e : Entry) : Json :=
  Json.object [
    (lit "uid", .str e.uid),
    (lit "book_name", .str e.bookName),
    (lit "source", .str e.source),
    (lit "comment", .str e.comment),
    (lit "keys", .texts e.keys),
    (lit "secondary_keys", .texts e.secondaryKeys),
    (lit "exclude_keys", .texts e.excludeKeys),
    (lit "selective", .bool e.selective),
    (lit "selective_logic", .str e.selectiveLogic.name),
    (lit "use_regex", .bool e.useRegex),
    (lit "case_sensitive", .ofOption .bool e.caseSensitive),
    (lit "match_whole_words", .ofOption .bool e.matchWholeWords),
    (lit "content", .str e.content),
    (lit "position", .str e.position.name),
    (lit "depth", .int e.depth),
    (lit "role", .str e.role.name),
    (lit "outlet", .str e.outlet),
    (lit "insertion_order", .int e.insertionOrder),
    (lit "enabled", .bool e.enabled),
    (lit "constant", .bool e.constant),
    (lit "dont_activate", .bool e.dontActivate),
    (lit "ignore_on_max_context", .bool e.ignoreOnMaxContext),
    (lit "scan_depth", .ofOption .int e.scanDepth),
    (lit "triggers", .texts (e.triggers.map (·.name))),
    (lit "activate_only_after", .ofOption .int e.activateOnlyAfter),
    (lit "activate_only_every", .ofOption .int e.activateOnlyEvery),
    (lit "ignore_budget", .bool e.ignoreBudget),
    (lit "use_probability", .bool e.useProbability),
    (lit "probability", .int e.probability),
    (lit "match_persona_description", .bool e.scanned.personaDescription),
    (lit "match_character_description", .bool e.scanned.characterDescription),
    (lit "match_character_personality", .bool e.scanned.characterPersonality),
    (lit "match_character_depth_prompt", .bool e.scanned.characterDepthPrompt),
    (lit "match_scenario", .bool e.scanned.scenario),
    (lit "match_creator_notes", .bool e.scanned.creatorNotes),
    (lit "group", if e.group.isEmpty then .null else .str e.group),
    (lit "group_override", .bool e.groupOverride),
    (lit "group_weight", .int e.groupWeight),
    (lit "use_group_scoring", .ofOption .bool e.useGroupScoring),
    (lit "automation_id", .str e.automationId),
    (lit "sticky", .ofOption .int e.sticky),
    (lit "cooldown", .ofOption .int e.cooldown),
    (lit "delay", .ofOption .int e.delay),
    (lit "exclude_recursion", .bool e.excludeRecursion),
    (lit "prevent_recursion", .bool e.preventRecursion),
    (lit "delay_until_recursion", recursionLevelToJson e.delayUntilRecursion)]

end Lorebook.Entry
