import Lorebook.Table
import Lorebook.Binary64

set_option autoImplicit false

/-!
JSON values. Texts are bytes; integers and doubles are kept apart; an object is a table, which
readers and `object` order by key.
-/

namespace Lorebook

inductive Json where
  | null
  | bool (b : Bool)
  | int (n : Int)
  | float (d : Binary64)
  | str (s : Bytes)
  | arr (items : List Json)
  | obj (fields : List (Bytes × Json))

namespace Json

mutual

def same : Json → Json → Bool
  | .null, .null => true
  | .bool a, .bool b => a == b
  | .int a, .int b => a == b
  | .float a, .float b => a == b
  | .str a, .str b => a == b
  | .arr a, .arr b => sameItems a b
  | .obj a, .obj b => sameFields a b
  | _, _ => false

def sameItems : List Json → List Json → Bool
  | [], [] => true
  | a :: as, b :: bs => same a b && sameItems as bs
  | _, _ => false

def sameFields : List (Bytes × Json) → List (Bytes × Json) → Bool
  | [], [] => true
  | (k, a) :: as, (k', b) :: bs => k == k' && same a b && sameFields as bs
  | _, _ => false

end

mutual

theorem eq_of_same : ∀ a b : Json, same a b = true → a = b
  | .null, b, h => by cases b <;> simp_all [same]
  | .bool _, b, h => by cases b <;> simp_all [same]
  | .int _, b, h => by cases b <;> simp_all [same]
  | .float _, b, h => by cases b <;> simp_all [same]
  | .str _, b, h => by cases b <;> simp_all [same]
  | .arr as, b, h => by
    cases b <;> simp_all [same]
    exact eq_of_sameItems _ _ h
  | .obj as, b, h => by
    cases b <;> simp_all [same]
    exact eq_of_sameFields _ _ h

theorem eq_of_sameItems : ∀ a b : List Json, sameItems a b = true → a = b
  | [], b, h => by cases b <;> simp_all [sameItems]
  | a :: as, b, h => by
    cases b with
    | nil => simp [sameItems] at h
    | cons b bs =>
      simp only [sameItems, Bool.and_eq_true] at h
      rw [eq_of_same a b h.1, eq_of_sameItems as bs h.2]

theorem eq_of_sameFields : ∀ a b : List (Bytes × Json), sameFields a b = true → a = b
  | [], b, h => by cases b <;> simp_all [sameFields]
  | (k, a) :: as, b, h => by
    cases b with
    | nil => simp [sameFields] at h
    | cons r bs =>
      obtain ⟨k', b⟩ := r
      simp only [sameFields, Bool.and_eq_true, beq_iff_eq] at h
      rw [h.1.1, eq_of_same a b h.1.2, eq_of_sameFields as bs h.2]

end

mutual

theorem same_self : ∀ a : Json, same a a = true
  | .null | .bool _ | .int _ | .float _ | .str _ => by simp [same]
  | .arr as => by rw [same]; exact sameItems_self as
  | .obj as => by rw [same]; exact sameFields_self as

theorem sameItems_self : ∀ as : List Json, sameItems as as = true
  | [] => rfl
  | a :: as => by rw [sameItems, same_self a, sameItems_self as]; rfl

theorem sameFields_self : ∀ as : List (Bytes × Json), sameFields as as = true
  | [] => rfl
  | (k, a) :: as => by rw [sameFields, same_self a, sameFields_self as]; simp

end

instance : DecidableEq Json := fun a b =>
  if h : same a b = true then isTrue (eq_of_same a b h)
  else isFalse fun e => h (e ▸ same_self a)

/-- An object with its fields by increasing key; of several fields with one key the last counts. -/
def object (fields : List (Bytes × Json)) : Json := .obj (Table.ofRows fields)

def texts (items : List Bytes) : Json := .arr (items.map .str)

def ofOption {α : Type} (f : α → Json) : Option α → Json
  | none => .null
  | some a => f a

def isNull : Json → Bool
  | .null => true
  | _ => false

def isObject : Json → Bool
  | .obj _ => true
  | _ => false

def fields : Json → Table Json
  | .obj fs => fs
  | _ => []

def get? (k : Bytes) (v : Json) : Option Json := Table.get? k v.fields

def setField (v : Json) (k : Bytes) (x : Json) : Json :=
  match v with
  | .obj fs => .obj (Table.insert k x fs)
  | v => v

end Json
end Lorebook
