import Managed.Limits
import Managed.LineSort.Order
import Managed.Space.Sort
import Managed.Space.Whole
import Managed.Text.Lines
import Managed.Text.Quoted

/-!
# Sorting lines

The lines of a text become strings in a managed array, which is sorted and rendered. The program
reads its limits first, then the text, and in a numeric sort it checks every line before it starts.
-/

namespace Managed.LineSort

/-! ## Sorting -/

/-- Appends a line to an array, and collects garbage when it is time to. -/
def addLine (array : Ref) (line : String) : SpaceM Unit := do
  let value ← Space.newString line
  let _ ← Space.append array value
  if (← get).heap.collectionDue then
    let _ ← Space.collectMinor

/-- A new array that holds the given lines. It is a root. -/
def loadLines (lines : List String) : SpaceM Ref := do
  let array ← Space.newArray 0
  Space.root array
  lines.forM (addLine array)
  return array

def orderText : Ordering → String
  | .lt => "-1"
  | .eq => "0"
  | .gt => "1"

/-- The answer of a comparator for an order of lines. -/
def answer (order : LineOrder) (reverse : Bool) (s : Space) (a b : Ref) : Option Object := do
  let a ← (s.stringValue a).toOption
  let b ← (s.stringValue b).toOption
  let verdict ← order.compare? a b
  return .string (orderText (if reverse then verdict.swap else verdict))

/-- The lines of a text, sorted and joined. -/
def sortLines (o : Options) (text : String) : SpaceM String := do
  let array ← loadLines (Text.lines text)
  let stable := o.has .stable
  if o.order = .natural ∧ !o.has .reverse then
    Space.sort array stable
  else
    Space.sortByAnswer array stable (answer o.order (o.has .reverse))
  let policy := if o.has .char then "C" else "L"
  let text ← Space.ask (·.render array (some policy) o.separator)
  let _ ← Space.unroot array
  return text

/-! ## Failures -/

inductive Failure where
  | config (path : String)
  | file (path : String)
  | standardInput
  /-- A line of a numeric sort holds no number. Lines are counted from one. -/
  | notNumber (number : Nat) (line : String)
  | fault (fault : Fault)
deriving DecidableEq, Repr

def Failure.message : Failure → String
  | config path => "failed to load config " ++ path
  | file path => "failed to read " ++ path
  | standardInput => "failed to read standard input"
  | notNumber number line =>
    "line " ++ toString number ++ " is not a number: " ++ Text.quoted line
  | fault f => f.message

/-- The first line that holds no number, with its place. -/
def firstNotNumber? (lines : List String) : Option (Nat × String) :=
  (lines.zipIdx 1).findSome? fun (line, n) =>
    if (number? line).isNone then some (n, line) else none

/-- Sorts a text within limits. What is printed ends with a line feed, unless it is empty. -/
def sortText (o : Options) (limits : SpaceLimits) (text : String) : Except Failure String := do
  if o.order = .numeric then
    if let some (n, line) := firstNotNumber? (Text.lines text) then
      throw (.notNumber n line)
  match sortLines o text (Space.ofLimits limits) with
  | .ok sorted _ => return if sorted.isEmpty then "" else sorted ++ "\n"
  | .error e _ => throw (.fault e)

/-! ## The program -/

inductive Source where
  | standardInput
  | file (path : String)
deriving DecidableEq, Repr

inductive Outcome where
  | printed (text : String)
  | failed (failure : Failure)
  /-- The command line breaks the rules. -/
  | rejected
deriving DecidableEq, Repr

def Outcome.exitCode : Outcome → UInt32
  | printed _ => 0
  | failed _ => 1
  | rejected => 2

def versionText : String :=
  "orx-sort 0.1.0\n"

def helpLines : List String :=
  [
    "Sort lines through the ORX managed array engine",
    "",
    "Usage: orx-sort [OPTIONS] [FILE]",
    "",
    "Arguments:",
    "  [FILE]  Input file (standard input when omitted)",
    "",
    "Options:",
    "  -s, --stable            Keep lines that compare equal in their input order",
    "  -n, --numeric           Compare lines as numbers",
    "  -r, --reverse           Reverse the order",
    "  -i, --caseless          Ignore case when comparing",
    "      --separator <TEXT>  Separator placed between output lines",
    "  -c, --char              Join output with no default separator",
    "      --config <FILE>     Runtime configuration file (TOML)",
    "  -v, --verbose           Enable verbose output",
    "  -h, --help              Print help",
    "  -V, --version           Print version"
  ]

def helpText : String :=
  String.join (helpLines.map (· ++ "\n"))

/-- How command lines and limits are read. -/
structure Grammar where
  command? : List String → Option Command
  limits? : String → Option SpaceLimits

def Grammar.standard : Grammar where
  command? := Command.parse?
  limits? text := (SpaceLimits.parse text).toOption

variable {m : Type → Type} [Monad m]

/-- The text of a source: what `read` finds there, if it is UTF-8. -/
def readText (read : Source → m (Option ByteArray)) (source : Source) (failure : Failure) :
    ExceptT Failure m String := do
  match (← (read source : m _)).bind String.fromUTF8? with
  | some text => return text
  | none => throw failure

/-- The limits that the options ask for. -/
def readLimits (grammar : Grammar) (read : Source → m (Option ByteArray)) (o : Options) :
    ExceptT Failure m SpaceLimits := do
  match o.config with
  | none => return {}
  | some path =>
    let text ← readText read (.file path) (.config path)
    match grammar.limits? text with
    | some limits => return limits
    | none => throw (.config path)

/-- The text to sort. -/
def readInput (read : Source → m (Option ByteArray)) (o : Options) : ExceptT Failure m String :=
  match o.file with
  | some path => readText read (.file path) (.file path)
  | none => readText read .standardInput .standardInput

/-- What a sort prints. -/
def runSort (grammar : Grammar) (read : Source → m (Option ByteArray)) (o : Options) :
    ExceptT Failure m String := do
  let limits ← readLimits grammar read o
  let text ← readInput read o
  sortText o limits text

/-- Runs a command line. -/
def runWith (grammar : Grammar) (read : Source → m (Option ByteArray)) (arguments : List String) :
    m Outcome := do
  match grammar.command? arguments with
  | none => return .rejected
  | some .help => return .printed helpText
  | some .version => return .printed versionText
  | some (.sort o) =>
    match ← (runSort grammar read o).run with
    | .ok output => return .printed output
    | .error failure => return .failed failure

def run (read : Source → m (Option ByteArray)) (arguments : List String) : m Outcome :=
  runWith .standard read arguments

end Managed.LineSort
