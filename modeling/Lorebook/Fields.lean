import Lorebook.Json.Coercion

set_option autoImplicit false

/-!
Fields of a JSON object across the dialects in which books arrive. A field is looked up under
several names, then under one name among the object's extensions; null counts as absent, and a value
that cannot be read as asked for reads as absent.
-/

namespace Lorebook.Fields

/-- The first of the named fields that is there and not null. -/
def find? (v : Json) : List Bytes → Option Json
  | [] => none
  | n :: names =>
    match v.get? n with
    | some x => if x.isNull then find? v names else some x
    | none => find? v names

def extension? (v : Json) (name : Bytes) : Option Json :=
  match v.get? (lit "extensions") with
  | some ext => find? ext [name]
  | none => none

/-- Under one of the names, or else as an extension; the empty extension name stands for none. -/
def at? (v : Json) (names : List Bytes) (ext : Bytes) : Option Json :=
  (find? v names).or (if ext.isEmpty then none else extension? v ext)

def has (v : Json) (names : List Bytes) : Bool := names.any fun n => (v.get? n).isSome

def bool? (v : Json) (names : List Bytes) (ext : Bytes) : Option Bool :=
  (at? v names ext).bind Json.toBool?

def bool (v : Json) (names : List Bytes) (ext : Bytes) (fallback : Bool) : Bool :=
  (bool? v names ext).getD fallback

def int? (v : Json) (names : List Bytes) (ext : Bytes) : Option Int :=
  (at? v names ext).bind Json.toInt?

def int (v : Json) (names : List Bytes) (ext : Bytes) (fallback : Int) : Int :=
  (int? v names ext).getD fallback

def positive? (n : Option Int) : Option Int := n.filter (0 < ·)

def positiveInt? (v : Json) (names : List Bytes) (ext : Bytes) : Option Int :=
  positive? (int? v names ext)

def scalarText? : Json → Option Bytes
  | .obj _ | .arr _ => none
  | v => some v.toText

def text (v : Json) (names : List Bytes) (ext : Bytes) (fallback : Bytes) : Bytes :=
  ((at? v names ext).bind scalarText?).getD fallback

def nonBlank? (v : Json) (names : List Bytes) (ext : Bytes) : Option Bytes :=
  (((at? v names ext).bind scalarText?).map Bytes.trim).filter (!·.isEmpty)

end Lorebook.Fields
