import Lorebook.Entry

set_option autoImplicit false

/-!
Entries with directives applied. A directive whose value is of the wrong kind changes nothing.
-/

namespace Lorebook

def Json.directiveInt? : Json → Option Int
  | .int n => some (Bounded.wrap n)
  | _ => none

def Json.textItems? : Json → Option (List Bytes)
  | .arr vs => some (vs.filterMap fun
    | .str s => some s
    | _ => none)
  | _ => none

namespace Entry

def addKeys (keys new : List Bytes) : List Bytes :=
  new.foldl (fun ks k => if k ∈ ks then ks else ks ++ [k]) keys

def directed (e : Entry) (name : Bytes) (v : Json) : Entry :=
  if name = lit "depth" then { e with depth := v.directiveInt?.getD e.depth }
  else if name = lit "scan_depth" then { e with scanDepth := v.directiveInt?.or e.scanDepth }
  else if name = lit "activate_only_after" then
    { e with activateOnlyAfter := v.directiveInt?.or e.activateOnlyAfter }
  else if name = lit "activate_only_every" then
    { e with activateOnlyEvery := v.directiveInt?.or e.activateOnlyEvery }
  else if name = lit "role" then
    match v with
    | .str s => { e with role := (Role.ofName? s).getD e.role }
    | _ => e
  else if name = lit "position" then
    match v with
    | .str s => { e with position := Position.ofName s }
    | _ => e
  else if name = lit "constant" then { e with constant := true }
  else if name = lit "dont_activate" then { e with dontActivate := true }
  else if name = lit "activate" then { e with dontActivate := false }
  else if name = lit "ignore_on_max_context" then { e with ignoreOnMaxContext := true }
  else if name = lit "use_regex" then { e with useRegex := true }
  else if name = lit "case_sensitive" then { e with caseSensitive := some true }
  else if name = lit "additional_keys" then
    { e with keys := addKeys e.keys (v.textItems?.getD []) }
  else if name = lit "exclude_keys" then { e with excludeKeys := v.textItems?.getD e.excludeKeys }
  else e

def withDirectives (e : Entry) (directives : Table Json) : Entry :=
  directives.foldl (fun e d => e.directed d.1 d.2) e

def recursiveVariant (e : Entry) : Entry := e.withDirectives e.fallbackDirectives

end Entry
end Lorebook
