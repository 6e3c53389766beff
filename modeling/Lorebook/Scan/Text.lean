import Lorebook.Entry

set_option autoImplicit false

/-!
The text in which the keys of an entry are looked for.
-/

namespace Lorebook.Scan

structure Sources where
  /-- The chat, most recent message first. -/
  messages : List Bytes := []
  context : ContextParts Bytes := .fill []
  /-- Further texts that every entry scans. -/
  injects : List Bytes := []
  deriving DecidableEq, Repr

def depthFor (src : Sources) (depth? : Option Int) (e : Entry) : Int :=
  (e.scanDepth.or depth?).getD src.messages.length

/-- The window of the chat, the parts of the context that the entry asks for, the injects and the
recursion buffer, each on lines of its own and without those that are empty. An entry that scans no
message scans nothing at all. -/
def effectiveText (src : Sources) (depth? : Option Int) (buffer? : Option Bytes) (e : Entry) :
    Bytes :=
  let depth := depthFor src depth? e
  if depth ≤ 0 then []
  else
    let window := Bytes.joinLines (src.messages.take depth.toNat)
    Bytes.joinLines
      ([window].filter (!·.isEmpty)
        ++ (e.scanned.chosen src.context).filter (!Bytes.isBlank ·)
        ++ src.injects.filter (!·.isEmpty)
        ++ buffer?.toList.filter (!Bytes.isBlank ·))

end Lorebook.Scan
