import Lorebook.Entry.Override

set_option autoImplicit false

/-!
Records of forced activations, by the entries that they are for. A record names an entry by its full
key, or by uid and book and perhaps source; of several records for one entry the last counts.
-/

namespace Lorebook.Scan

structure ForcedIndex where
  /-- By full key. -/
  full : Table Json := []
  /-- By book and uid. -/
  world : Table Json := []
  deriving DecidableEq

namespace ForcedIndex

/-- The first of the named fields, if it is not null, else the second. -/
def fieldOr? (o : Json) (first second : Bytes) : Option Json :=
  ((o.get? first).filter (!·.isNull)).or ((o.get? second).filter (!·.isNull))

/-- The full key that a record gives; it has a colon and a point. -/
def fullKey? (o : Json) : Option Bytes :=
  ((fieldOr? o (lit "entry_key") (lit "key")).map Json.toText).filter fun k =>
    Bytes.ofChar ':' ∈ k && Bytes.ofChar '.' ∈ k

def bookName (o : Json) : Bytes :=
  let named := (fieldOr? o (lit "book_name") (lit "world")).or
    ((o.get? (lit "book")).filter (!·.isNull))
  let name := Bytes.trim ((named.map Json.toText).getD [])
  if name.isEmpty then lit "unnamed" else name

/-- Adds a record, unless it names no uid. -/
def add (idx : ForcedIndex) (o : Json) : ForcedIndex :=
  match fieldOr? o (lit "uid") (lit "id") with
  | none => idx
  | some uid =>
    match fullKey? o with
    | some k => { idx with full := Table.put k o idx.full }
    | none =>
      let target := bookName o ++ lit "." ++ uid.toText
      let full := match (o.get? (lit "source")).filter (!·.isNull) with
        | some src => Table.put (Bytes.trim src.toText ++ lit ":" ++ target) o idx.full
        | none => idx.full
      { full, world := Table.put target o idx.world }

def ofJson : Json → ForcedIndex
  | .arr os => (os.filter (·.isObject)).foldl add {}
  | _ => {}

/-- The record for an entry; one for the full key comes first. -/
def find? (idx : ForcedIndex) (e : Entry) : Option Json :=
  (Table.get? e.key idx.full).or (Table.get? e.worldKey idx.world)

end ForcedIndex
end Lorebook.Scan
