/-!
# Command lines

A command line holds flags, settings that take a value, and at most one file name. It is first read
as a list of tokens, without a look at what came before, and then taken from left to right. Each
option is given at most once. Asking for help or for the version ends the reading.
-/

namespace Managed.LineSort

inductive Flag where
  | stable
  | numeric
  | reverse
  | caseless
  | char
  | verbose
deriving DecidableEq, Repr

inductive Setting where
  | separator
  | config
deriving DecidableEq, Repr

structure Options where
  flags : List Flag := []
  separator : Option String := none
  config : Option String := none
  file : Option String := none
deriving DecidableEq, Repr

/-- What a command line asks for. -/
inductive Command where
  | sort (options : Options)
  | help
  | version
deriving DecidableEq, Repr

inductive Token where
  | flag (flag : Flag)
  | setting (setting : Setting) (value : String)
  | file (name : String)
  | help
  | version
  | invalid
deriving DecidableEq, Repr

/-! ## Tokens -/

/-- The option without a value that a letter stands for. -/
def Token.ofLetter : Char → Token
  | 's' => flag .stable
  | 'n' => flag .numeric
  | 'r' => flag .reverse
  | 'i' => flag .caseless
  | 'c' => flag .char
  | 'v' => flag .verbose
  | 'h' => help
  | 'V' => version
  | _ => invalid

/-- The option without a value that has a name. -/
def Token.ofName : String → Token
  | "stable" => flag .stable
  | "numeric" => flag .numeric
  | "reverse" => flag .reverse
  | "caseless" => flag .caseless
  | "char" => flag .char
  | "verbose" => flag .verbose
  | "help" => help
  | "version" => version
  | _ => invalid

def Setting.ofName? : String → Option Setting
  | "separator" => some .separator
  | "config" => some .config
  | _ => none

/-- An option with its value after an equals sign. -/
def Token.ofAssignment (name value : String) : Token :=
  match Setting.ofName? name with
  | some s => setting s value
  | none => invalid

/-- The tokens of an argument that stands by itself. A dash alone is a file name. -/
def Token.ofArgument (argument : String) : List Token :=
  match argument.toList with
  | '-' :: '-' :: body =>
    match body.span (· != '=') with
    | (name, []) => [ofName (String.ofList name)]
    | (name, _ :: value) => [ofAssignment (String.ofList name) (String.ofList value)]
  | '-' :: letter :: letters => (letter :: letters).map ofLetter
  | _ => [file argument]

/-- The setting whose value is the next argument. -/
def Setting.announced? (argument : String) : Option Setting :=
  match argument.toList with
  | '-' :: '-' :: name => ofName? (String.ofList name)
  | _ => none

/-- Whether an argument can be the value of the option in front of it. -/
def isValue (argument : String) : Bool :=
  match argument.toList with
  | '-' :: _ :: _ => false
  | _ => true

/-- The tokens of a command line. After two dashes there are file names only. -/
def tokens : List String → List Token
  | [] => []
  | argument :: rest =>
    if argument = "--" then rest.map .file
    else
      match Setting.announced? argument, rest with
      | none, rest => Token.ofArgument argument ++ tokens rest
      | some s, value :: rest =>
        if isValue value then .setting s value :: tokens rest else [.invalid]
      | some _, [] => [.invalid]

/-! ## Options -/

namespace Options

def has (o : Options) (f : Flag) : Bool :=
  o.flags.contains f

def addFlag? (o : Options) (f : Flag) : Option Options :=
  if o.has f then none else some { o with flags := f :: o.flags }

/-- A path is not empty; a separator may be. -/
def set? (o : Options) : Setting → String → Option Options
  | .separator, text =>
    if o.separator.isSome then none else some { o with separator := some text }
  | .config, path =>
    if o.config.isSome || path.isEmpty then none else some { o with config := some path }

def setFile? (o : Options) (name : String) : Option Options :=
  if o.file.isSome || name.isEmpty then none else some { o with file := some name }

/-- Lines cannot be compared both as numbers and without regard to case. -/
def isConsistent (o : Options) : Bool :=
  !(o.has .numeric && o.has .caseless)

end Options

/-! ## Commands -/

/-- The command given by tokens that follow the given options. -/
def Command.ofTokens? (o : Options) : List Token → Option Command
  | [] => if o.isConsistent then some (.sort o) else none
  | .flag f :: rest => do ofTokens? (← o.addFlag? f) rest
  | .setting s value :: rest => do ofTokens? (← o.set? s value) rest
  | .file name :: rest => do ofTokens? (← o.setFile? name) rest
  | .help :: _ => some .help
  | .version :: _ => some .version
  | .invalid :: _ => none

/-- The command of a command line, unless it breaks the rules. -/
def Command.parse? (arguments : List String) : Option Command :=
  ofTokens? {} (tokens arguments)

end Managed.LineSort
