import Lorebook.Fault
import Lorebook.Table

set_option autoImplicit false

/-!
Variables that outlive an evaluation: texts by key. Keys are trimmed, and a blank key is a fault.
-/

namespace Lorebook

abbrev Variables := Table Bytes

namespace Variables

def key (k : Bytes) : Except Fault Bytes :=
  let t := Bytes.trim k
  if t.isEmpty then .error .blankVariableKey else .ok t

theorem key_of_blank {k : Bytes} (h : Bytes.isBlank k = true) :
    key k = .error .blankVariableKey := by
  simp [key, (Bytes.trim_eq_nil_iff k).mpr h]

theorem key_of_not_blank {k : Bytes} (h : Bytes.isBlank k = false) :
    key k = .ok (Bytes.trim k) := by
  unfold key
  dsimp only
  rw [if_neg]
  rw [List.isEmpty_iff, Bytes.trim_eq_nil_iff, h]
  exact Bool.false_ne_true

def get? (vars : Variables) (k : Bytes) : Except Fault (Option Bytes) :=
  (key k).map fun t => Table.get? t vars

def contains (vars : Variables) (k : Bytes) : Except Fault Bool :=
  (get? vars k).map Option.isSome

def set (vars : Variables) (k value : Bytes) : Except Fault Variables :=
  (key k).map fun t => Table.insert t value vars

def erase (vars : Variables) (k : Bytes) : Except Fault (Bool × Variables) :=
  (key k).map fun t => (Table.contains t vars, Table.erase t vars)

def size (vars : Variables) : Nat := vars.length

def textOf : Json → Bytes
  | .str s => s
  | v => v.compact

def flaw? : Json → Option Utf8.Flaw
  | .str _ => none
  | v => v.flaw?

/-- Sets the variables of some fields. Fields with blank keys are left out, and a value that cannot
be written out ends it; of several keys that are the same when trimmed the last counts. -/
def setFields (vars : Variables) : List (Bytes × Json) → Variables × Option Utf8.Flaw
  | [] => (vars, none)
  | (k, x) :: fs =>
    match key k with
    | .error _ => setFields vars fs
    | .ok t =>
      match flaw? x with
      | some f => (vars, some f)
      | none => setFields (Table.insert t (textOf x) vars) fs

def load (v : Json) : Variables × Option Utf8.Flaw := setFields [] v.fields

def ofJson (v : Json) : Variables := (load v).1

def toJson (vars : Variables) : Json := .obj (vars.map fun (k, v) => (k, .str v))

end Variables
end Lorebook
