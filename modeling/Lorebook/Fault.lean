import Lorebook.Json.Coercion

set_option autoImplicit false

/-!
What can go wrong: misuse by the caller, and books that cannot be read at all. Entry data as such
never fails, except for a selective logic that does not exist.
-/

namespace Lorebook

inductive Fault where
  | unknownPosition (name : Bytes)
  | unknownRole (name : Bytes)
  | unknownGenerationType (name : Bytes)
  | unknownInsertionStrategy (name : Bytes)
  | unknownLogicName (name : Bytes)
  | unknownLogicIndex (index : Int)
  | unknownLogicValue (value : Json)
  | blankVariableKey
  | noEstimator
  | emptyScanBuffer
  | noBooks
  | fileNotOpened (path : Bytes)
  | bookNotObject
  | bookNotOpened (path : Bytes)
  | bookNotJson (path : Bytes)
  | entriesNotCollection
  deriving DecidableEq

namespace Fault

def isBookFault : Fault → Bool
  | .bookNotObject | .bookNotOpened _ | .bookNotJson _ | .entriesNotCollection => true
  | _ => false

def quotedName (what name : Bytes) : Bytes := what ++ lit "'" ++ name ++ lit "'"

def message : Fault → Bytes
  | .unknownPosition n => quotedName (lit "Unknown position: ") n
  | .unknownRole n => quotedName (lit "role must be one of system, user, assistant; got: ") n
  | .unknownGenerationType n =>
    quotedName (lit "generation_type must be one of normal, continue, impersonate, "
      ++ lit "swipe, regenerate, quiet; got: ") n
  | .unknownInsertionStrategy n => quotedName (lit "Unknown insertion strategy: ") n
  | .unknownLogicName n => quotedName (lit "Unknown selective_logic: ") n
  | .unknownLogicIndex i => lit "Unknown selective_logic: " ++ Bytes.ofInt i
  | .unknownLogicValue v => lit "Unknown selective_logic: " ++ v.compact
  | .blankVariableKey => lit "Variable key must not be blank"
  | .noEstimator => lit "Engine requires a token estimator"
  | .emptyScanBuffer => lit "max_scan_buffer_bytes must be positive"
  | .noBooks => lit "evaluate requires at least one book"
  | .fileNotOpened p => lit "Cannot open file: " ++ p
  | .bookNotObject => lit "Lore book must be a JSON object"
  | .bookNotOpened p => lit "Cannot open lore book: " ++ p
  | .bookNotJson p => lit "Invalid JSON in lore book: " ++ p
  | .entriesNotCollection => lit "Lore book entries must be an array or an object"

end Fault
end Lorebook
