import Lorebook.Bytes

set_option autoImplicit false

/-!
Tables with text keys. `insert` keeps the keys in increasing byte order, `put` keeps them in the
order of their first appearance; both replace the value of a key that is there.
-/

namespace Lorebook

abbrev Table (β : Type) := List (Bytes × β)

namespace Table

variable {β : Type}

def get? (k : Bytes) : Table β → Option β
  | [] => none
  | (k', v) :: t => if k' = k then some v else get? k t

def contains (k : Bytes) (t : Table β) : Bool := t.any (·.1 == k)

def keys (t : Table β) : List Bytes := t.map (·.1)

def erase (k : Bytes) (t : Table β) : Table β := t.filter (·.1 != k)

def insert (k : Bytes) (v : β) : Table β → Table β
  | [] => [(k, v)]
  | (k', v') :: t =>
    if k < k' then (k, v) :: (k', v') :: t
    else if k = k' then (k, v) :: t
    else (k', v') :: insert k v t

def put (k : Bytes) (v : β) : Table β → Table β
  | [] => [(k, v)]
  | (k', v') :: t => if k' = k then (k, v) :: t else (k', v') :: put k v t

/-- The rows by increasing key; of several rows with one key the last counts. -/
def ofRows (rows : List (Bytes × β)) : Table β := rows.foldl (fun t r => insert r.1 r.2 t) []

def inOrder (rows : List (Bytes × β)) : Table β := rows.foldl (fun t r => put r.1 r.2 t) []

@[simp] theorem get?_insert_self (k : Bytes) (v : β) (t : Table β) :
    get? k (insert k v t) = some v := by
  induction t with
  | nil => simp [insert, get?]
  | cons r t ih =>
    simp only [insert]
    split
    · simp [get?]
    · split
      · simp [get?]
      · next h => simp [get?, ih, Ne.symm h]

theorem get?_insert_of_ne {k k' : Bytes} (h : k' ≠ k) (v : β) (t : Table β) :
    get? k (insert k' v t) = get? k t := by
  induction t with
  | nil => simp [insert, get?, h]
  | cons r t ih =>
    simp only [insert]
    split
    · simp [get?, h]
    · split
      · next e => simp [get?, h, ← e]
      · simp [get?, ih]

end Table
end Lorebook
