import Lorebook.Variables

set_option autoImplicit false

/-!
A variable store whose database is not open: it holds nothing, and writing to it fails.
-/

namespace Lorebook

structure ClosedStore where
  lastError : Bytes := []
  deriving DecidableEq, Repr

namespace ClosedStore

def get? (_ : ClosedStore) (k : Bytes) : Except Fault (Option Bytes) :=
  (Variables.key k).map fun _ => none

def contains (_ : ClosedStore) (k : Bytes) : Except Fault Bool :=
  (Variables.key k).map fun _ => false

def refused : ClosedStore := ⟨lit "database not open"⟩

def set (_ : ClosedStore) (k _value : Bytes) : Except Fault (Bool × ClosedStore) :=
  (Variables.key k).map fun _ => (false, refused)

def erase (_ : ClosedStore) (k : Bytes) : Except Fault (Bool × ClosedStore) :=
  (Variables.key k).map fun _ => (false, refused)

def clear (_ : ClosedStore) : Bool × ClosedStore := (false, refused)

end ClosedStore
end Lorebook
