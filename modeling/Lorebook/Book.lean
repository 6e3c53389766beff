import Lorebook.Entry.Reader
import Lorebook.Entry.Writer
import Lorebook.Json.Reader
import Lorebook.Sorting

set_option autoImplicit false

/-!
Books: named collections of entries with settings for the scan. A book is an object of its own or
the book within a character card; its entries are an array, or an object whose keys stand in for
uids.
-/

namespace Lorebook

structure Book where
  /-- Empty for a book without a name. -/
  name : Bytes := []
  description : Bytes := []
  /-- The scan window in messages. -/
  scanDepth : Option Int := none
  tokenBudget : Option Int := none
  recursiveScanning : Bool := false
  entries : List Entry := []
  extensions : Json := .obj []
  source : Bytes := []
  deriving DecidableEq

namespace Book

def declaredUid? (v : Json) : Option Bytes :=
  ((v.get? (lit "uid")).or (v.get? (lit "id"))).map Json.toText

/-- Keys made of digits come first, by their number; all else is by byte order. -/
def entryKeyLe (a b : Bytes) : Bool :=
  match Bytes.isDigits a, Bytes.isDigits b with
  | true, false => true
  | false, true => false
  | false, false => a ≤ b
  | true, true =>
    let m := Bytes.leadingInt a
    let n := Bytes.leadingInt b
    if m ≠ n then m < n else a ≤ b

/-- The items of an array with uids; the one at place `i` has `i` for a uid unless it declares
one. -/
def numbered (i : Nat) : List Json → List (Bytes × Json)
  | [] => []
  | v :: vs => ((declaredUid? v).getD (Bytes.ofNat i), v) :: numbered (i + 1) vs

def indexed : Json → Except Fault (List (Bytes × Json))
  | .arr vs => .ok (numbered 1 vs)
  | .obj fs => .ok ((sortBy (fun a b => entryKeyLe a.1 b.1) fs).map fun (k, v) =>
      ((declaredUid? v).getD k, v))
  | _ => .error .entriesNotCollection

def readEntries (source name : Bytes) : List (Bytes × Json) → Except Fault (List Entry)
  | [] => .ok []
  | (uid, v) :: rest =>
    match Entry.ofJson v (some uid) [] source name with
    | .error f => .error f
    | .ok e => (readEntries source name rest).map (e :: ·)

def settings (v : Json) (source : Bytes) : Book :=
  let camel := Fields.has v [lit "scanDepth", lit "tokenBudget", lit "recursiveScanning"]
  let name (snake hump : Bytes) : List Bytes := [if camel then hump else snake]
  { source
    name := ((Fields.find? v [lit "name"]).map Json.toText).getD []
    description := ((Fields.find? v [lit "description"]).map Json.toText).getD []
    scanDepth := Fields.int? v (name (lit "scan_depth") (lit "scanDepth")) []
    tokenBudget := Fields.int? v (name (lit "token_budget") (lit "tokenBudget")) []
    recursiveScanning := Fields.bool v
      (name (lit "recursive_scanning") (lit "recursiveScanning")) [] false
    extensions := match v.get? (lit "extensions") with
      | some (.obj fs) => .obj fs
      | _ => .obj [] }

def cardData? (v : Json) : Option Json :=
  match v.get? (lit "spec"), v.get? (lit "data") with
  | some spec, some data =>
    if spec.toText = lit "chara_card_v2" ∧ data.isObject = true then some data else none
  | _, _ => none

def ofObject (v : Json) (source : Bytes) : Except Fault Book :=
  let book := settings v source
  match Fields.find? v [lit "entries"] with
  | none => .ok book
  | some raw =>
    match indexed raw with
    | .error f => .error f
    | .ok items => (readEntries source book.name items).map fun es => { book with entries := es }

theorem sizeOf_get?_lt {v x : Json} {k : Bytes} (h : v.get? k = some x) : sizeOf x < sizeOf v := by
  cases v with
  | obj fs =>
    simp only [Json.get?, Json.fields] at h
    have : sizeOf x < sizeOf fs := by
      induction fs with
      | nil => simp [Table.get?] at h
      | cons r t ih =>
        obtain ⟨k', v'⟩ := r
        simp only [Table.get?] at h
        split at h
        · simp only [Option.some.injEq] at h
          subst h
          simp only [List.cons.sizeOf_spec, Prod.mk.sizeOf_spec]
          omega
        · have := ih h
          simp only [List.cons.sizeOf_spec]
          omega
    simp only [Json.obj.sizeOf_spec]
    omega
  | _ => simp [Json.get?, Json.fields, Table.get?] at h

theorem cardData?_eq_some {v data : Json} (h : cardData? v = some data) :
    v.get? (lit "data") = some data := by
  unfold cardData? at h
  split at h
  · next hd =>
    split at h
    · rw [hd]; exact h
    · simp at h
  · simp at h

/-- Reads a book, from a card the one within it; a card without a book is an empty book. -/
def ofJson (v : Json) (source : Bytes) : Except Fault Book :=
  if v.isObject then
    match _hd : cardData? v with
    | none => ofObject v source
    | some data =>
      match _hb : data.get? (lit "character_book") with
      | none => .ok { source }
      | some b => if b.isNull then .ok { source } else ofJson b source
  else .error .bookNotObject
termination_by sizeOf v
decreasing_by
  have h₁ := sizeOf_get?_lt (cardData?_eq_some _hd)
  have h₂ := sizeOf_get?_lt _hb
  omega

/-- Reads a book from the text of a file; no text stands for a file that cannot be opened. -/
def ofFile (path : Bytes) (text? : Option Bytes) (source : Bytes) : Except Fault Book :=
  match text? with
  | none => .error (.bookNotOpened path)
  | some text =>
    match Json.read? text with
    | none => .error (.bookNotJson path)
    | some v => ofJson v source

def toJson (b : Book) : Json :=
  Json.object [
    (lit "name", .str b.name),
    (lit "description", .str b.description),
    (lit "scan_depth", .ofOption .int b.scanDepth),
    (lit "token_budget", .ofOption .int b.tokenBudget),
    (lit "recursive_scanning", .bool b.recursiveScanning),
    (lit "entries", .arr (b.entries.map Entry.toJson)),
    (lit "extensions", b.extensions),
    (lit "source", .str b.source)]

end Book
end Lorebook
