import Managed.Toml.Layout

/-!
# Strings and keys

Strings stand between double quotes, with escapes, or between single ones, without. Between three
quotes they may have several lines. A key is bare or a string on one line, and may have several
parts.
-/

namespace Managed.Toml

open Reader

/-! ## Strings -/

/-- Characters that stand for themselves in a string between the given quotes. -/
def isPlain (quote : Char) (c : Char) : Bool :=
  c == '\t' || ('\x20' ≤ c && c != '\x7F' && c != quote && !(quote == '"' && c == '\\'))

/-- The value of a list of digits of some base. -/
def digitsValue (base : Nat) (digits : List Char) : Nat :=
  digits.foldl (fun n c =>
    base * n + if c.isDigit then c.toNat - '0'.toNat else c.toLower.toNat - 'a'.toNat + 10) 0

def isHexDigit (c : Char) : Bool :=
  c.isDigit || ('a' ≤ c.toLower && c.toLower ≤ 'f')

/-- A character given by its code point. -/
def codePoint (length : Nat) : Reader Char := do
  let code := digitsValue 16 (← exactly isHexDigit length)
  if code.isValidChar then return Char.ofNat code else failure

def escape : Reader Char := do
  char '\\'
  match ← satisfying fun _ => true with
  | 'b' => return '\x08'
  | 't' => return '\t'
  | 'n' => return '\n'
  | 'f' => return '\x0C'
  | 'r' => return '\r'
  | '"' => return '"'
  | '\\' => return '\\'
  | 'u' => codePoint 4
  | 'U' => codePoint 8
  | _ => failure

/-- A character of a string on one line. Only double quotes allow escapes. -/
def stringChar (quote : Char) : Reader Char :=
  satisfying (isPlain quote) <|> (if quote == '"' then escape else failure)

/-- A string on one line. -/
def lineString (quote : Char) : Reader String := do
  char quote
  let text ← many (stringChar quote)
  char quote
  return String.ofList text

/-- A backslash at the end of a line, with the white space and the line ends after it. -/
def continuation : Reader Unit := do
  char '\\'
  blanks
  newline
  let _ ← many ((do let _ ← satisfying fun c => c == ' ' || c == '\t') <|> newline)

/-- Quotes that do not end a string of several lines: one or two of them. -/
def looseQuotes (quote : Char) : Reader (List Char) := do
  let quotes ← run (· == quote)
  if quotes.length == 1 || quotes.length == 2 then return quotes else failure

/-- A part of a string of several lines. -/
def textPart (quote : Char) : Reader (List Char) :=
  (do return [← stringChar quote]) <|>
    (do newline; return ['\n']) <|>
    (if quote == '"' then do continuation; return [] else failure) <|>
    looseQuotes quote

/-- A string of several lines. Up to two quotes may stand before the three that end it. -/
def textString (quote : Char) : Reader String := do
  word (String.ofList [quote, quote, quote])
  let _ ← option newline
  let parts ← many (textPart quote)
  let quotes ← run (· == quote)
  if quotes.length < 3 || 5 < quotes.length then failure
  return String.ofList (parts.flatten ++ quotes.drop 3)

def anyString : Reader String :=
  textString '"' <|> lineString '"' <|> textString '\'' <|> lineString '\''

/-! ## Keys -/

def isBareChar (c : Char) : Bool :=
  c.isAlphanum || c == '-' || c == '_'

def bareKey : Reader String := do
  let text ← run isBareChar
  if text.isEmpty then failure
  return String.ofList text

def simpleKey : Reader String := do
  blanks
  let key ← lineString '"' <|> lineString '\'' <|> bareKey
  blanks
  return key

/-- The depth that keys and values must not reach. -/
def depthLimit : Nat := 80

/-- A key, dotted or not: the keys in front and the last one. -/
def dottedKey : Reader (List String × String) := do
  let first ← simpleKey
  let keys := first :: (← many (do char '.'; simpleKey))
  if depthLimit ≤ keys.length then failure
  return (keys.dropLast, keys.getLast (List.cons_ne_nil _ _))

end Managed.Toml
