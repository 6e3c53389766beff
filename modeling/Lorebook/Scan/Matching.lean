import Lorebook.Entry.Override
import Lorebook.KeyMatch
import Lorebook.Scan.Settings

set_option autoImplicit false

/-!
How the keys of an entry match a text: under which options, and how many of them.
-/

namespace Lorebook

namespace Scanner

/-- A truth value given by the object an entry was read from: the first of the named fields that is
there, unless it is null. -/
def rawFlag? (e : Entry) (names : List Bytes) : Option Bool :=
  ((Entry.namedField? e.raw names).filter (!·.isNull)).map Json.truthy

/-- The entry's own choice, else that of its object, else the default. -/
def caseSensitiveFor (sc : Scanner) (e : Entry) : Bool :=
  (e.caseSensitive.or (rawFlag? e [lit "caseSensitive", lit "case_sensitive"])).getD
    sc.caseSensitive

def matchWholeWordsFor (sc : Scanner) (e : Entry) : Bool :=
  (e.matchWholeWords.or (rawFlag? e [lit "matchWholeWords", lit "match_whole_words"])).getD
    sc.matchWholeWords

def keyOptions (sc : Scanner) (e : Entry) : KeyOptions where
  caseSensitive := sc.caseSensitiveFor e
  wholeWords := sc.matchWholeWordsFor e
  useRegex := e.useRegex

/-- Exclude keys are never patterns just because the entry's keys are. -/
def excludeOptions (sc : Scanner) (e : Entry) : KeyOptions :=
  { sc.keyOptions e with useRegex := false }

def matching (o : KeyOptions) (keys : List Bytes) (text : Bytes) : List Bytes :=
  keys.filter fun k => KeyMatch.keyMatches o k text

/-- How well an entry matches a text: the number of matching keys, to which matching secondary keys
are added where one of them, or all of them, are asked for. -/
def score (sc : Scanner) (e : Entry) (text : Bytes) : Int :=
  let o := sc.keyOptions e
  let primary := (matching o e.keys text).length
  let secondary := (matching o e.secondaryKeys text).length
  if e.keys.isEmpty then 0
  else if !e.selective || e.secondaryKeys.isEmpty then primary
  else match e.selectiveLogic with
    | .andAny => primary + secondary
    | .andAll => if secondary = e.secondaryKeys.length then primary + secondary else primary
    | .notAny | .notAll => primary

end Scanner
end Lorebook
