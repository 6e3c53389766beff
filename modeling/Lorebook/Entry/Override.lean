import Lorebook.Entry.Reader

set_option autoImplicit false

/-!
Entries with the fields replaced that the record of a forced activation names. Of several names for
one field the first that is there counts.
-/

namespace Lorebook.Entry

def namedField? (o : Json) : List Bytes → Option Json
  | [] => none
  | n :: names => (o.get? n).or (namedField? o names)

/-- The first of the named fields that is there, unless it is null or false. -/
def overrideValue? (o : Json) (names : List Bytes) : Option Json :=
  (namedField? o names).filter fun v => v != .null && v != .bool false

def overridden (e : Entry) (o : Json) : Entry :=
  let value := overrideValue? o
  let text (names : List Bytes) (old : Bytes) : Bytes := ((value names).map Json.toText).getD old
  let int (names : List Bytes) (old : Int) : Int := ((value names).bind Json.toInt?).getD old
  let flag (names : List Bytes) (old : Bool) : Bool :=
    ((namedField? o names).map Json.truthy).getD old
  let span (names : List Bytes) (old : Option Int) : Option Int :=
    match value names with
    | some v => Fields.positive? v.toInt?
    | none => old
  { e with
    content := text [lit "content"] e.content
    position := ((value [lit "position", lit "pos"]).map Position.ofJson).getD e.position
    depth := int [lit "depth"] e.depth
    role := ((value [lit "role"]).map (Role.ofJson e.role)).getD e.role
    outlet := text [lit "outlet", lit "outlet_name", lit "outletName"] e.outlet
    insertionOrder := int [lit "insertion_order", lit "order", lit "insertionOrder", lit "priority"]
      e.insertionOrder
    comment := text [lit "comment", lit "memo"] e.comment
    ignoreBudget := flag [lit "ignoreBudget", lit "ignore_budget"] e.ignoreBudget
    group := ((value [lit "group"]).map fun v => Bytes.trim v.toText).getD e.group
    groupOverride := flag [lit "groupOverride", lit "group_override"] e.groupOverride
    groupWeight := match value [lit "groupWeight", lit "group_weight"] with
      | some v => atLeast 1 (v.toInt?.getD e.groupWeight)
      | none => e.groupWeight
    useProbability := flag [lit "useProbability", lit "use_probability"] e.useProbability
    probability := match value [lit "probability"] with
      | some v => inRange 0 100 (v.toInt?.getD e.probability)
      | none => e.probability
    useGroupScoring := match namedField? o [lit "useGroupScoring", lit "use_group_scoring"] with
      | some v => if v.isNull then none else some v.truthy
      | none => e.useGroupScoring
    automationId := text [lit "automationId", lit "automation_id"] e.automationId
    sticky := span [lit "sticky"] e.sticky
    cooldown := span [lit "cooldown"] e.cooldown
    delay := span [lit "delay"] e.delay
    excludeRecursion := flag [lit "excludeRecursion", lit "exclude_recursion"] e.excludeRecursion
    preventRecursion := flag [lit "preventRecursion", lit "prevent_recursion"] e.preventRecursion
    delayUntilRecursion :=
      match namedField? o [lit "delayUntilRecursion", lit "delay_until_recursion"] with
      | some v => recursionLevelOfJson? v
      | none => e.delayUntilRecursion }

end Lorebook.Entry
