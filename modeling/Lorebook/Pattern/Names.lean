import Lorebook.Pattern

set_option autoImplicit false

/-!
Names between brackets: `[:digit:]` for classes and `[.hyphen.]` for single bytes.
-/

namespace Lorebook

/-- The class of a name, which may be in either case; `d`, `s` and `w` are names too. -/
def ByteClass.ofName? (name : Bytes) : Option ByteClass :=
  [("d", digit), ("w", word), ("s", space), ("alnum", alnum), ("alpha", alpha), ("blank", blank),
   ("cntrl", cntrl), ("digit", digit), ("graph", graph), ("lower", lower), ("print", print),
   ("punct", punct), ("space", space), ("upper", upper), ("xdigit", xdigit)].findSome? fun (n, c) =>
    if lit n = Bytes.toLower name then some c else none

namespace Pattern

def byteNames : List String :=
  ["NUL", "SOH", "STX", "ETX", "EOT", "ENQ", "ACK", "alert", "backspace", "tab", "newline",
   "vertical-tab", "form-feed", "carriage-return", "SO", "SI", "DLE", "DC1", "DC2", "DC3", "DC4",
   "NAK", "SYN", "ETB", "CAN", "EM", "SUB", "ESC", "IS4", "IS3", "IS2", "IS1", "space",
   "exclamation-mark", "quotation-mark", "number-sign", "dollar-sign", "percent-sign", "ampersand",
   "apostrophe", "left-parenthesis", "right-parenthesis", "asterisk", "plus-sign", "comma",
   "hyphen", "period", "slash", "zero", "one", "two", "three", "four", "five", "six", "seven",
   "eight", "nine", "colon", "semicolon", "less-than-sign", "equals-sign", "greater-than-sign",
   "question-mark", "commercial-at", "A", "B", "C", "D", "E", "F", "G", "H", "I", "J", "K", "L",
   "M", "N", "O", "P", "Q", "R", "S", "T", "U", "V", "W", "X", "Y", "Z", "left-square-bracket",
   "backslash", "right-square-bracket", "circumflex", "underscore", "grave-accent", "a", "b", "c",
   "d", "e", "f", "g", "h", "i", "j", "k", "l", "m", "n", "o", "p", "q", "r", "s", "t", "u", "v",
   "w", "x", "y", "z", "left-curly-bracket", "vertical-line", "right-curly-bracket", "tilde",
   "DEL"]

def byteOfName? (name : Bytes) : Option UInt8 :=
  (byteNames.findIdx? fun n => lit n == name).map UInt8.ofNat

end Pattern
end Lorebook
