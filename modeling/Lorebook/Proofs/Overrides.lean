import Lorebook.Entry.Override
import Lorebook.Proofs.Directives
import Lorebook.Proofs.Reload
import Mathlib.Data.List.Pairwise

set_option autoImplicit false

/-!
What a record of a forced activation changes of an entry: field by field what it says of the field,
and nothing else. A field that is there as null or false says nothing, and then the other names of
the field are not asked either.
-/

namespace Lorebook

theorem Table.get?_filter_key {β : Type} (p : Bytes → Bool) (k : Bytes) (t : Table β) :
    get? k (t.filter fun r => p r.1) = if p k then get? k t else none := by
  induction t with
  | nil => simp [get?]
  | cons r t ih =>
    obtain ⟨k₀, v₀⟩ := r
    by_cases h : k₀ = k
    · subst h
      by_cases hp : p k₀ <;> simp [get?, ih, hp]
    · by_cases hp₀ : p k₀ <;> simp [get?, ih, h, hp₀]

def Json.isVoid (v : Json) : Bool := v == .null || v == .bool false

inductive OverrideField where
  | content
  | position
  | depth
  | role
  | outlet
  | insertionOrder
  | comment
  | group
  | groupWeight
  | probability
  | automationId
  | sticky
  | cooldown
  | delay
  | ignoreBudget
  | groupOverride
  | useProbability
  | useGroupScoring
  | excludeRecursion
  | preventRecursion
  | delayUntilRecursion
  deriving DecidableEq, Repr

namespace OverrideField

/-- Whether null and false in the record leave the field as it is. -/
def needsValue : OverrideField → Bool
  | ignoreBudget | groupOverride | useProbability | useGroupScoring | excludeRecursion
  | preventRecursion | delayUntilRecursion => false
  | _ => true

/-- The names of the field in a record, the first to be asked first. -/
def names : OverrideField → List Bytes
  | content => [lit "content"]
  | position => [lit "position", lit "pos"]
  | depth => [lit "depth"]
  | role => [lit "role"]
  | outlet => [lit "outlet", lit "outlet_name", lit "outletName"]
  | insertionOrder => [lit "insertion_order", lit "order", lit "insertionOrder", lit "priority"]
  | comment => [lit "comment", lit "memo"]
  | group => [lit "group"]
  | groupWeight => [lit "groupWeight", lit "group_weight"]
  | probability => [lit "probability"]
  | automationId => [lit "automationId", lit "automation_id"]
  | sticky => [lit "sticky"]
  | cooldown => [lit "cooldown"]
  | delay => [lit "delay"]
  | ignoreBudget => [lit "ignoreBudget", lit "ignore_budget"]
  | groupOverride => [lit "groupOverride", lit "group_override"]
  | useProbability => [lit "useProbability", lit "use_probability"]
  | useGroupScoring => [lit "useGroupScoring", lit "use_group_scoring"]
  | excludeRecursion => [lit "excludeRecursion", lit "exclude_recursion"]
  | preventRecursion => [lit "preventRecursion", lit "prevent_recursion"]
  | delayUntilRecursion => [lit "delayUntilRecursion", lit "delay_until_recursion"]

def Value : OverrideField → Type
  | content | outlet | comment | group | automationId => Bytes
  | position => Position
  | role => Role
  | depth | insertionOrder | groupWeight | probability => Int
  | sticky | cooldown | delay | delayUntilRecursion => Option Int
  | useGroupScoring => Option Bool
  | ignoreBudget | groupOverride | useProbability | excludeRecursion | preventRecursion => Bool

def of : (f : OverrideField) → Entry → f.Value
  | content => Entry.content
  | position => Entry.position
  | depth => Entry.depth
  | role => Entry.role
  | outlet => Entry.outlet
  | insertionOrder => Entry.insertionOrder
  | comment => Entry.comment
  | group => Entry.group
  | groupWeight => Entry.groupWeight
  | probability => Entry.probability
  | automationId => Entry.automationId
  | sticky => Entry.sticky
  | cooldown => Entry.cooldown
  | delay => Entry.delay
  | ignoreBudget => Entry.ignoreBudget
  | groupOverride => Entry.groupOverride
  | useProbability => Entry.useProbability
  | useGroupScoring => Entry.useGroupScoring
  | excludeRecursion => Entry.excludeRecursion
  | preventRecursion => Entry.preventRecursion
  | delayUntilRecursion => Entry.delayUntilRecursion

def said? (f : OverrideField) (o : Json) : Option Json :=
  if f.needsValue then Entry.overrideValue? o f.names else Entry.namedField? o f.names

theorem said?_of_absent {f : OverrideField} {o : Json} (h : ∀ n ∈ f.names, o.get? n = none) :
    f.said? o = none := by
  have hnone : ∀ ns : List Bytes, (∀ n ∈ ns, o.get? n = none) → Entry.namedField? o ns = none := by
    intro ns hns
    induction ns with
    | nil => rfl
    | cons n ns ih =>
      rw [Entry.namedField?, hns n List.mem_cons_self,
        ih fun m hm => hns m (List.mem_cons_of_mem n hm)]
      rfl
  rw [said?, Entry.overrideValue?, hnone f.names h]
  split <;> rfl

end OverrideField

namespace Entry

open OverrideField (said?)

variable {e v : Entry} {o o' : Json} {f : OverrideField}

structure BeyondOverrides (e v : Entry) : Prop extends SameIdentity e v where
  keys : v.keys = e.keys
  secondaryKeys : v.secondaryKeys = e.secondaryKeys
  excludeKeys : v.excludeKeys = e.excludeKeys
  selective : v.selective = e.selective
  selectiveLogic : v.selectiveLogic = e.selectiveLogic
  useRegex : v.useRegex = e.useRegex
  caseSensitive : v.caseSensitive = e.caseSensitive
  matchWholeWords : v.matchWholeWords = e.matchWholeWords
  scanDepth : v.scanDepth = e.scanDepth
  scanned : v.scanned = e.scanned
  enabled : v.enabled = e.enabled
  constant : v.constant = e.constant
  dontActivate : v.dontActivate = e.dontActivate
  ignoreOnMaxContext : v.ignoreOnMaxContext = e.ignoreOnMaxContext
  activateOnlyAfter : v.activateOnlyAfter = e.activateOnlyAfter
  activateOnlyEvery : v.activateOnlyEvery = e.activateOnlyEvery
  triggers : v.triggers = e.triggers
  fallbackDirectives : v.fallbackDirectives = e.fallbackDirectives
  raw : v.raw = e.raw

theorem beyond_overridden (e : Entry) (o : Json) : BeyondOverrides e (e.overridden o) := by
  constructor
  case toSameIdentity => exact ⟨rfl, rfl, rfl⟩
  all_goals rfl

theorem of_overridden_congr (h : f.said? o = f.said? o') (e : Entry) :
    f.of (e.overridden o) = f.of (e.overridden o') := by
  cases f
  all_goals
    simp only [said?, OverrideField.needsValue, OverrideField.names, if_true, if_false,
      Bool.false_eq_true] at h
    simp only [OverrideField.of, overridden, h]
    rfl

/-- Records that give an entry the same fields give the same entry. -/
theorem overridden_eq_of_fields
    (h : ∀ f : OverrideField, f.of (e.overridden o) = f.of (e.overridden o')) :
    e.overridden o = e.overridden o' := by
  apply Entry.ext
  case content => exact h .content
  case position => exact h .position
  case depth => exact h .depth
  case role => exact h .role
  case outlet => exact h .outlet
  case insertionOrder => exact h .insertionOrder
  case comment => exact h .comment
  case group => exact h .group
  case groupWeight => exact h .groupWeight
  case probability => exact h .probability
  case automationId => exact h .automationId
  case sticky => exact h .sticky
  case cooldown => exact h .cooldown
  case delay => exact h .delay
  case ignoreBudget => exact h .ignoreBudget
  case groupOverride => exact h .groupOverride
  case useProbability => exact h .useProbability
  case useGroupScoring => exact h .useGroupScoring
  case excludeRecursion => exact h .excludeRecursion
  case preventRecursion => exact h .preventRecursion
  case delayUntilRecursion => exact h .delayUntilRecursion
  all_goals rfl

theorem overridden_null (e : Entry) : e.overridden .null = e := rfl

/-- A field that the record says nothing of stays. -/
theorem of_overridden_of_silent (h : f.said? o = none) (e : Entry) :
    f.of (e.overridden o) = f.of e := by
  have hnull : f.said? .null = none := OverrideField.said?_of_absent fun _ _ => rfl
  exact of_overridden_congr (h.trans hnull.symm) e

end Entry

namespace OverrideField

def all : List OverrideField :=
  [content, position, depth, role, outlet, insertionOrder, comment, group, groupWeight, probability,
   automationId, sticky, cooldown, delay, ignoreBudget, groupOverride, useProbability,
   useGroupScoring, excludeRecursion, preventRecursion, delayUntilRecursion]

theorem mem_all (f : OverrideField) : f ∈ all := by cases f <;> decide

theorem nodup_names : (all.flatMap names).Nodup := by decide +kernel

theorem eq_of_mem_names {f g : OverrideField} {n : Bytes} (hf : n ∈ f.names) (hg : n ∈ g.names) :
    f = g := by
  by_contra hne
  have hsymm : Std.Symm (Function.onFun List.Disjoint names) := ⟨fun _ _ h _ hl hr => h hr hl⟩
  have hdisjoint := (List.nodup_flatMap.mp nodup_names).2.forall f.mem_all g.mem_all hne
  exact hdisjoint hf hg

theorem exists_names (f : OverrideField) : ∃ n ns, f.names = n :: ns := by
  cases f <;> exact ⟨_, _, rfl⟩

def wantsValue (n : Bytes) : Bool := all.any fun f => f.needsValue && n ∈ f.names

theorem wantsValue_of_mem {f : OverrideField} {n : Bytes} (h : n ∈ f.names) :
    wantsValue n = f.needsValue := by
  rw [Bool.eq_iff_iff, wantsValue, List.any_eq_true]
  constructor
  · rintro ⟨g, _, hg⟩
    obtain ⟨hvalue, hmem⟩ := Bool.and_eq_true_iff.mp hg
    rwa [eq_of_mem_names h (of_decide_eq_true hmem)]
  · intro hvalue
    exact ⟨f, f.mem_all, by simp [hvalue, h]⟩

/-- What a record would say of the field if null and false were passed over for the next name. -/
def meant? (f : OverrideField) (o : Json) : Option Json :=
  if f.needsValue then f.names.findSome? fun n => (o.get? n).filter (!·.isVoid)
  else Entry.namedField? o f.names

/-- A record has a value for the field, under a name that is not asked any more. -/
def Masked (f : OverrideField) (o v : Json) : Prop := f.said? o = none ∧ f.meant? o = some v

def alone (f : OverrideField) (v : Json) : Json := .obj [(f.names.headD [], v)]

end OverrideField

/-- A record without the null and the false that stand where a value is wanted. -/
def Json.withoutVoid (o : Json) : Json :=
  .obj (o.fields.filter fun r => !(OverrideField.wantsValue r.1 && (o.get? r.1).any isVoid))

theorem Json.get?_withoutVoid (o : Json) (n : Bytes) :
    o.withoutVoid.get? n =
      if OverrideField.wantsValue n then (o.get? n).filter (!·.isVoid) else o.get? n := by
  have hfilter : o.withoutVoid.get? n =
      if !(OverrideField.wantsValue n && (o.get? n).any isVoid) then o.get? n else none :=
    Table.get?_filter_key (fun n => !(OverrideField.wantsValue n && (o.get? n).any isVoid)) n
      o.fields
  rw [hfilter]
  cases OverrideField.wantsValue n <;> cases o.get? n <;>
    simp [Option.filter_some, ← Bool.not_eq_true]

namespace OverrideField

variable {f g : OverrideField} {o v : Json} {ns : List Bytes}

theorem overrideValue?_eq (o : Json) (ns : List Bytes) :
    Entry.overrideValue? o ns = (Entry.namedField? o ns).filter (!·.isVoid) := by
  simp [Entry.overrideValue?, Json.isVoid, bne]

theorem namedField?_withoutVoid (hwants : ∀ n ∈ ns, wantsValue n = true) (o : Json) :
    Entry.namedField? o.withoutVoid ns = ns.findSome? fun n => (o.get? n).filter (!·.isVoid) := by
  induction ns with
  | nil => rfl
  | cons n ns ih =>
    rw [Entry.namedField?, Json.get?_withoutVoid, if_pos (hwants n List.mem_cons_self),
      ih fun m hm => hwants m (List.mem_cons_of_mem n hm), List.findSome?_cons]
    cases (o.get? n).filter (!·.isVoid) <;> rfl

theorem namedField?_withoutVoid_of_not (hwants : ∀ n ∈ ns, wantsValue n = false) (o : Json) :
    Entry.namedField? o.withoutVoid ns = Entry.namedField? o ns := by
  induction ns with
  | nil => rfl
  | cons n ns ih =>
    have hn : ¬wantsValue n = true := by simp [hwants n List.mem_cons_self]
    rw [Entry.namedField?, Json.get?_withoutVoid, if_neg hn,
      ih fun m hm => hwants m (List.mem_cons_of_mem n hm), Entry.namedField?]

theorem not_void_of_meant? (hvalue : f.needsValue = true) (h : f.meant? o = some v) :
    v.isVoid = false := by
  rw [meant?, if_pos hvalue] at h
  obtain ⟨n, _, hn⟩ := List.exists_of_findSome?_eq_some h
  simpa using (Option.filter_eq_some_iff.mp hn).2

theorem said?_withoutVoid (f : OverrideField) (o : Json) : f.said? o.withoutVoid = f.meant? o := by
  rw [said?, meant?]
  split
  · next hvalue =>
    rw [overrideValue?_eq,
      namedField?_withoutVoid fun n hn => (wantsValue_of_mem hn).trans hvalue]
    cases hfound : f.names.findSome? (fun n => (o.get? n).filter (!·.isVoid)) with
    | none => rfl
    | some v =>
      have hmeant : f.meant? o = some v := by rw [meant?, if_pos hvalue, hfound]
      simp [not_void_of_meant? hvalue hmeant]
  · next hvalue =>
    have hvalue : f.needsValue = false := by simpa using hvalue
    exact namedField?_withoutVoid_of_not (fun n hn => (wantsValue_of_mem hn).trans hvalue) o

theorem said?_cases (f : OverrideField) (o : Json) : f.said? o = none ∨ f.said? o = f.meant? o := by
  rw [said?, meant?]
  split
  · rw [overrideValue?_eq]
    induction f.names with
    | nil => exact .inl rfl
    | cons n ns ih =>
      rw [Entry.namedField?, List.findSome?_cons]
      cases o.get? n with
      | none => exact ih
      | some v => cases hv : v.isVoid <;> simp [Option.filter_some, hv]
  · exact .inr rfl

theorem said?_alone (h : f.Masked o v) : f.said? (f.alone v) = some v := by
  obtain ⟨n, ns, hnames⟩ := f.exists_names
  have hnamed : Entry.namedField? (f.alone v) f.names = some v := by
    simp [Entry.namedField?, alone, hnames, Json.get?, Json.fields, Table.get?]
  rw [said?, overrideValue?_eq, hnamed]
  split
  · next hvalue => simp [not_void_of_meant? hvalue h.2]
  · rfl

theorem said?_alone_of_ne (h : g ≠ f) (v : Json) : g.said? (f.alone v) = none := by
  obtain ⟨n, ns, hnames⟩ := f.exists_names
  refine said?_of_absent fun m hm => ?_
  have hne : n ≠ m := by
    rintro rfl
    exact h (eq_of_mem_names hm (hnames ▸ List.mem_cons_self))
  simp [alone, hnames, Json.get?, Json.fields, Table.get?, hne]

end OverrideField

namespace Entry

open OverrideField (said? meant? alone Masked)

variable {e : Entry} {o v : Json} {f : OverrideField}

theorem of_overridden_alone (h : f.Masked o v) (e : Entry) :
    f.of (e.overridden (f.alone v)) = f.of (e.overridden o.withoutVoid) := by
  refine of_overridden_congr ?_ e
  rw [OverrideField.said?_alone h, OverrideField.said?_withoutVoid, h.2]

/-- Null and false can be left out of a record unless they mask a value that changes the entry. -/
theorem overridden_withoutVoid_iff (e : Entry) (o : Json) :
    e.overridden o.withoutVoid = e.overridden o ↔
      ∀ f v, Masked f o v → e.overridden (f.alone v) = e := by
  constructor
  · intro heq f v hmasked
    rw [← e.overridden_null]
    refine overridden_eq_of_fields fun g => ?_
    rw [overridden_null, overridden_null]
    by_cases hg : g = f
    · subst hg
      rw [of_overridden_alone hmasked, heq, of_overridden_of_silent hmasked.1]
    · exact of_overridden_of_silent (OverrideField.said?_alone_of_ne hg v) e
  · intro hmasked
    refine overridden_eq_of_fields fun f => ?_
    have hvoid := OverrideField.said?_withoutVoid f o
    rcases OverrideField.said?_cases f o with hsilent | hmeant
    · rw [of_overridden_of_silent hsilent]
      cases hf : f.meant? o with
      | none => exact of_overridden_of_silent (hvoid.trans hf) e
      | some v => rw [← of_overridden_alone ⟨hsilent, hf⟩, hmasked f v ⟨hsilent, hf⟩]
    · exact of_overridden_congr (hvoid.trans hmeant.symm) e

/-- What a record changes of an entry. -/
theorem overridden_frame (e : Entry) (o : Json) :
    BeyondOverrides e (e.overridden o) ∧
    (e.overridden o).key = e.key ∧ (e.overridden o).worldKey = e.worldKey ∧
    (∀ f : OverrideField, (∀ n ∈ f.names, o.get? n = none) → f.of (e.overridden o) = f.of e) ∧
    (e.overridden o.withoutVoid = e.overridden o ↔
      ∀ f v, Masked f o v → e.overridden (f.alone v) = e) := by
  refine ⟨e.beyond_overridden o, (e.beyond_overridden o).key, rfl, ?_,
    e.overridden_withoutVoid_iff o⟩
  intro f habsent
  exact of_overridden_of_silent (OverrideField.said?_of_absent habsent) e

end Entry

def Json.maskedPosition : Json :=
  .obj [(lit "position", .null), (lit "pos", .str (lit "outlet"))]

namespace Entry

def unplaced : Entry := { uid := lit "1", content := lit "x" }

theorem not_overridden_withoutVoid :
    (unplaced.overridden .maskedPosition).position = .afterCharDefs ∧
      (unplaced.overridden Json.maskedPosition.withoutVoid).position = .outlet ∧
      unplaced.overridden Json.maskedPosition.withoutVoid ≠
        unplaced.overridden .maskedPosition := by
  decide +kernel

end Entry
end Lorebook
