import Lorebook.Fault

set_option autoImplicit false

/-!
The words of lore activation: where an entry goes, in whose voice, how its keys combine, what kind
of generation is under way, how an entry was activated and how selected entries are ordered. Each
has one name for writing; names are read without regard to case and outer blanks.
-/

namespace Lorebook

/-- A name as it is compared: lower-case, without bytes up to the space at its ends. -/
def normalName (s : Bytes) : Bytes :=
  Bytes.toLower (Bytes.dropEnding (· ≤ 32) (s.dropWhile (· ≤ 32)))

inductive Position where
  | beforeCharDefs
  | afterCharDefs
  | beforeExampleMessages
  | afterExampleMessages
  | topOfAN
  | bottomOfAN
  | atDepth
  | outlet
  deriving DecidableEq, Repr

namespace Position

def all : List Position :=
  [beforeCharDefs, afterCharDefs, beforeExampleMessages, afterExampleMessages, topOfAN, bottomOfAN,
   atDepth, outlet]

def name : Position → Bytes
  | beforeCharDefs => lit "before_char_defs"
  | afterCharDefs => lit "after_char_defs"
  | beforeExampleMessages => lit "before_example_messages"
  | afterExampleMessages => lit "after_example_messages"
  | topOfAN => lit "top_of_an"
  | bottomOfAN => lit "bottom_of_an"
  | atDepth => lit "at_depth"
  | outlet => lit "outlet"

def aliases : List (Bytes × Position) :=
  [(lit "before_char", beforeCharDefs), (lit "before_desc", beforeCharDefs),
   (lit "before_main", beforeCharDefs), (lit "after_char", afterCharDefs),
   (lit "after_desc", afterCharDefs), (lit "after_main", afterCharDefs),
   (lit "top_an", topOfAN), (lit "bottom_an", bottomOfAN), (lit "depth", atDepth),
   (lit "in_chat", atDepth), (lit "@d", atDepth)]

def ofName? (s : Bytes) : Option Position :=
  Table.get? (normalName s) (all.map (fun p => (p.name, p)) ++ aliases)

/-- The position of a name; an unknown one is placed after the character definitions. -/
def ofName (s : Bytes) : Position := (ofName? s).getD afterCharDefs

def parse (s : Bytes) : Except Fault Position :=
  match ofName? s with
  | some p => .ok p
  | none => .error (.unknownPosition s)

def ofIndex (i : Int) : Position :=
  if i = 0 then beforeCharDefs
  else if i = 2 then topOfAN
  else if i = 3 then bottomOfAN
  else if i = 4 then atDepth
  else if i = 5 then beforeExampleMessages
  else if i = 6 then afterExampleMessages
  else if i = 7 then outlet
  else afterCharDefs

def ofJson : Json → Position
  | .int n => ofIndex (Bounded.wrap n)
  | .str s => ofName s
  | _ => afterCharDefs

end Position

inductive Role where
  | system
  | user
  | assistant
  deriving DecidableEq, Repr

namespace Role

def all : List Role := [system, user, assistant]

def name : Role → Bytes
  | system => lit "system"
  | user => lit "user"
  | assistant => lit "assistant"

def ofName? (s : Bytes) : Option Role := Table.get? (normalName s) (all.map fun r => (r.name, r))

def parse (s : Bytes) : Except Fault Role :=
  match ofName? s with
  | some r => .ok r
  | none => .error (.unknownRole s)

def ofIndex? (i : Int) : Option Role :=
  if i = 0 then some system else if i = 1 then some user else if i = 2 then some assistant
  else none

def ofJson (fallback : Role) : Json → Role
  | .int n => (ofIndex? (Bounded.wrap n)).getD fallback
  | .str s => (ofName? s).getD fallback
  | _ => fallback

end Role

inductive SelectiveLogic where
  | andAny
  | andAll
  | notAny
  | notAll
  deriving DecidableEq, Repr

namespace SelectiveLogic

def all : List SelectiveLogic := [andAny, andAll, notAny, notAll]

def name : SelectiveLogic → Bytes
  | andAny => lit "and_any"
  | andAll => lit "and_all"
  | notAny => lit "not_any"
  | notAll => lit "not_all"

def parse (s : Bytes) : Except Fault SelectiveLogic :=
  match Table.get? (normalName s) (all.map fun l => (l.name, l)) with
  | some l => .ok l
  | none => .error (.unknownLogicName s)

def ofIndex (i : Int) : Except Fault SelectiveLogic :=
  if i = 0 then .ok andAny
  else if i = 1 then .ok notAll
  else if i = 2 then .ok notAny
  else if i = 3 then .ok andAll
  else .error (.unknownLogicIndex i)

def ofJson : Json → Except Fault SelectiveLogic
  | .int n => ofIndex (Bounded.wrap n)
  | .str s =>
    let t := Bytes.trim s
    if Bytes.isDigits t then ofIndex (Bytes.leadingInt t) else parse t
  | v => .error (.unknownLogicValue v)

def passes (logic : SelectiveLogic) (matched total : Nat) : Bool :=
  match logic with
  | andAny => matched != 0
  | andAll => matched == total
  | notAny => matched == 0
  | notAll => matched != total

end SelectiveLogic

inductive ActivationKind where
  | constant
  | sticky
  | forced
  | direct
  | recursive
  deriving DecidableEq, Repr

def ActivationKind.name : ActivationKind → Bytes
  | constant => lit "constant"
  | sticky => lit "sticky"
  | forced => lit "forced"
  | direct => lit "direct"
  | recursive => lit "recursive"

inductive GenerationType where
  | normal
  | continuation
  | impersonate
  | swipe
  | regenerate
  | quiet
  deriving DecidableEq, Repr

namespace GenerationType

def all : List GenerationType := [normal, continuation, impersonate, swipe, regenerate, quiet]

def name : GenerationType → Bytes
  | normal => lit "normal"
  | continuation => lit "continue"
  | impersonate => lit "impersonate"
  | swipe => lit "swipe"
  | regenerate => lit "regenerate"
  | quiet => lit "quiet"

def ofName? (s : Bytes) : Option GenerationType :=
  Table.get? (normalName s) (all.map fun g => (g.name, g))

def parse (s : Bytes) : Except Fault GenerationType :=
  match ofName? s with
  | some g => .ok g
  | none => .error (.unknownGenerationType s)

def namesIn : Json → List Bytes
  | .arr vs => vs.filterMap fun
    | .str s => some s
    | _ => none
  | .str s => Bytes.trimmedPieces 44 s
  | _ => []

/-- The known generation types among some names, each once, in order of appearance. -/
def ofJson (v : Json) : List GenerationType :=
  (namesIn v).foldl (fun out n =>
    match ofName? n with
    | some g => if g ∈ out then out else out ++ [g]
    | none => out) []

end GenerationType

inductive InsertionStrategy where
  | sortedEvenly
  | characterLoreFirst
  | globalLoreFirst
  deriving DecidableEq, Repr

namespace InsertionStrategy

def all : List InsertionStrategy := [sortedEvenly, characterLoreFirst, globalLoreFirst]

def name : InsertionStrategy → Bytes
  | sortedEvenly => lit "sorted_evenly"
  | characterLoreFirst => lit "character_lore_first"
  | globalLoreFirst => lit "global_lore_first"

def parse (s : Bytes) : Except Fault InsertionStrategy :=
  match Table.get? (normalName s) (all.map fun i => (i.name, i)) with
  | some i => .ok i
  | none => .error (.unknownInsertionStrategy s)

end InsertionStrategy
end Lorebook
