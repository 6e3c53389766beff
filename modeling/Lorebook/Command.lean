import Lorebook.Command.Arguments
import Lorebook.Random.Mersenne
import Lorebook.Scan

set_option autoImplicit false

/-!
The command line as a function: from the arguments and the files that can be read to an exit code
and what is written.
-/

namespace Lorebook.Command

def version : Bytes := lit "1.4.0"

structure Reply where
  exit : Nat := 0
  out : Bytes := []
  err : Bytes := []
  deriving DecidableEq, Repr

def versionLine : Bytes := lit "lorekit " ++ version ++ lit "\n"

def baseName (path : Bytes) : Bytes := (path.reverse.takeWhile (· != 47)).reverse

def usage (program : Bytes) : Bytes :=
  (([lit "lorekit " ++ version ++ lit " - Lore book activation",
    [],
    lit "Usage: " ++ baseName program ++ lit " <command> [options]",
    []] ++ ([
    "Commands:",
    "  evaluate           Evaluate books against chat text (JSON result)",
    "  parse-keys <TEXT>  Split a comma-separated key list",
    "  decorators <FILE>  Parse @@decorators from entry content",
    "  version            Show version",
    "  help               Show this help",
    "",
    "Evaluate options:",
    "  --book FILE        Lore book JSON (repeatable)",
    "  --source NAME      Source tag for the following books (default: global)",
    "  --text TEXT        Scan text; lines are messages, most recent first",
    "  --messages FILE    Messages, one per line, most recent first",
    "  --scan-depth N     Default scan window in messages",
    "  --budget N         Token budget (default: sum of book budgets)",
    "  --strategy NAME    sorted_evenly | character_lore_first | global_lore_first",
    "  --generation TYPE  normal | continue | impersonate | swipe | regenerate | quiet",
    "  --min-activations N  Widen the scan window until N entries are selected",
    "  --forced FILE      Forced activation records (JSON array)",
    "  --state FILE.db    Persist timed effects in SQLite",
    "  --message-count N  Message clock for timed effects",
    "  --seed N           Seed probability and group draws",
    "  --recursion N      Max recursion steps (default: 3)",
    "  --verbose          Log engine passes to stderr",
    "  -v, --version      Show version"].map lit)).map (· ++ lit "\n")).flatten

/-- Reading a file by its path; nothing if it cannot be opened. -/
abbrev Files := Bytes → Option Bytes

def readFile (files : Files) (path : Bytes) : Except Fault Bytes :=
  match files path with
  | some text => .ok text
  | none => .error (.fileNotOpened path)

/-- The reply to a fault: books have an exit code of their own. -/
def faultReply (written : Bytes) (f : Fault) : Reply :=
  if f.isBookFault then { exit := 2, err := written ++ lit "[cli] " ++ f.message ++ lit "\n" }
  else { exit := 1, err := written ++ lit "[cli] Error: " ++ f.message ++ lit "\n" }

def loadedLine (b : Book) (path : Bytes) : Bytes :=
  lit "[cli] Loaded '" ++ b.name ++ lit "' (" ++ Bytes.ofNat b.entries.length
    ++ lit " entries) from " ++ path ++ lit "\n"

def loadBooks (files : Files) (verbose : Bool) (written : Bytes) :
    List (Bytes × Bytes) → Except Reply (List Book × Bytes)
  | [] => .ok ([], written)
  | (path, source) :: rest =>
    match Book.ofFile path (files path) source with
    | .error f => .error (faultReply written f)
    | .ok b =>
      let written := if verbose then written ++ loadedLine b path else written
      (loadBooks files verbose written rest).map fun (bs, written) => (b :: bs, written)

def loadForced (files : Files) (path written : Bytes) : Except Reply Json :=
  if path.isEmpty then .ok (.arr [])
  else
    match readFile files path with
    | .error f => .error (faultReply written f)
    | .ok text =>
      match Json.read? text with
      | some (.arr items) => .ok (.arr items)
      | _ => .error {
          exit := 1
          err := written ++ lit "[cli] --forced must name a JSON array: " ++ path ++ lit "\n" }

def scanOptions (files : Files) (a : Arguments) : Except Fault Scan.Options := do
  let messages ← match a.text with
    | some _ => pure none
    | none => (readFile files a.messagesFile).map fun t => some (Bytes.lines t)
  let strategy ← InsertionStrategy.parse a.strategy
  let generation ← GenerationType.parse a.generation
  return {
    text := a.text
    messages
    depth := a.scanDepth
    tokenBudget := a.budget
    strategy
    generation
    messageCount := a.messageCount
    minActivations := a.minActivations }

def reportScan (sc : Scanner) (books : List Book) (o : Scan.Options) (random : Random)
    (written : Bytes) : Reply :=
  let r := Scan.evaluate sc books o [] random
  let err := written ++ r.log.flatten
  match r.outcome with
  | .error f => faultReply err f
  | .ok outcome => { out := Json.indented 0 outcome.toJson.repaired ++ lit "\n", err }

/-- The reply to `evaluate`; draws come from `fresh` unless a seed is given. -/
def evaluate (files : Files) (fresh : Random) (a : Arguments) : Reply :=
  if a.books.isEmpty then { exit := 1, err := lit "[cli] evaluate needs at least one --book\n" }
  else if a.text.isNone && a.messagesFile.isEmpty then
    { exit := 1, err := lit "[cli] evaluate needs --text or --messages\n" }
  else
    match loadBooks files a.verbose [] a.books with
    | .error r => r
    | .ok (books, written) =>
      match Scanner.ofSettings { maxRecursionSteps := a.recursion, verbose := a.verbose },
          scanOptions files a with
      | .error f, _ => faultReply written f
      | _, .error f => faultReply written f
      | .ok sc, .ok o =>
        match loadForced files a.forcedFile written with
        | .error r => r
        | .ok forced =>
          if !a.stateFile.isEmpty then
            { exit := 1
              err := written ++ lit "[cli] Cannot open state " ++ a.stateFile
                ++ lit ": no database\n" }
          else
            reportScan sc books { o with forced } ((a.seed.map Random.ofSeed).getD fresh) written

def hexByte (b : UInt8) : Bytes :=
  let digit (n : Nat) : UInt8 := UInt8.ofNat (if n < 10 then 48 + n else 55 + n)
  [digit (b.toNat / 16), digit (b.toNat % 16)]

def flawMessage : Utf8.Flaw → Bytes
  | .invalid place b =>
    lit "[json.exception.type_error.316] invalid UTF-8 byte at index " ++ Bytes.ofNat place
      ++ lit ": 0x" ++ hexByte b
  | .incomplete b =>
    lit "[json.exception.type_error.316] incomplete UTF-8 string; last byte: 0x" ++ hexByte b

def parseKeys (text : Bytes) : Reply :=
  let keys := Json.texts (KeyList.ofText text)
  match keys.flaw? with
  | some f => { exit := 1, err := lit "[cli] Error: " ++ flawMessage f ++ lit "\n" }
  | none => { out := keys.compact ++ lit "\n" }

def directives (files : Files) (path : Bytes) : Reply :=
  match readFile files path with
  | .error f => faultReply [] f
  | .ok text =>
    let p := Directive.parse text
    let v := Json.obj [
      (lit "decorators", .obj p.standard),
      (lit "fallback_decorators", .obj p.fallback),
      (lit "content", .str p.content)]
    { out := Json.indented 0 v.repaired ++ lit "\n" }

def runCommand (program : Bytes) (files : Files) (fresh : Random) (a : Arguments) : Reply :=
  if a.command.isEmpty ∨ a.command = lit "help" then { err := usage program }
  else if a.command = lit "version" then { out := versionLine }
  else if a.command = lit "evaluate" then evaluate files fresh a
  else if a.command = lit "parse-keys" then
    if a.word.isEmpty then { exit := 1, err := lit "Usage: lorekit parse-keys <TEXT>\n" }
    else parseKeys a.word
  else if a.command = lit "decorators" then
    if a.word.isEmpty then { exit := 1, err := lit "Usage: lorekit decorators <FILE>\n" }
    else directives files a.word
  else
    { exit := 1
      err := lit "Unknown command: " ++ a.command ++ lit "\n\n" ++ usage program }

def run (program : Bytes) (args : List Bytes) (files : Files) (fresh : Random) : Reply :=
  match readArguments {} args with
  | .run a => runCommand program files fresh a
  | .usage => { err := usage program }
  | .version => { out := versionLine }
  | .unknownOption o =>
    { exit := 1, err := lit "Unknown option: " ++ o ++ lit "\n" ++ usage program }
  | .badNumber kind =>
    { exit := 1, err := lit "[cli] Invalid numeric argument (" ++ kind.name ++ lit ")\n" }

def fileNames (args : List Bytes) : List Bytes :=
  match readArguments {} args with
  | .run a => a.books.map (·.1) ++ [a.messagesFile, a.forcedFile, a.word]
  | _ => []

end Lorebook.Command
