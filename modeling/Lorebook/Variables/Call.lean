import Lorebook.Variables

set_option autoImplicit false

/-!
Calls to a variable store, with what it answers and what it then holds.
-/

namespace Lorebook

inductive VariableCall where
  | set (key value : Bytes)
  | get (key : Bytes)
  | erase (key : Bytes)
  | contains (key : Bytes)
  | size
  | clear
  | load (v : Json)
  deriving DecidableEq

inductive VariableAnswer where
  | text (value : Option Bytes)
  | flag (b : Bool)
  | count (n : Nat)
  /-- Loading has no answer, unless it fails. -/
  | loaded (failure : Option Utf8.Flaw)
  | fault (f : Fault)
  deriving DecidableEq

namespace VariableCall

def key? : VariableCall → Option Bytes
  | set k _ | get k | erase k | contains k => some k
  | size | clear | load _ => none

def orFault (vars : Variables) :
    Except Fault (VariableAnswer × Variables) → VariableAnswer × Variables
  | .ok r => r
  | .error f => (.fault f, vars)

def run (vars : Variables) : VariableCall → VariableAnswer × Variables
  | set k v => orFault vars ((vars.set k v).map fun vars => (.flag true, vars))
  | get k => orFault vars ((vars.get? k).map fun x => (.text x, vars))
  | erase k => orFault vars ((Variables.erase vars k).map fun (was, vars) => (.flag was, vars))
  | contains k => orFault vars ((Variables.contains vars k).map fun b => (.flag b, vars))
  | size => (.count vars.size, vars)
  | clear => (.flag true, [])
  | load v =>
    let (vars, failure) := Variables.load v
    (.loaded failure, vars)

end VariableCall
end Lorebook
