import Managed.Toml.Reader

/-!
# White space and comments

A line ends with a line feed, alone or after a carriage return. A comment lasts to the end of its
line.
-/

namespace Managed.Toml

open Reader

def blanks : Reader Unit := do
  let _ ← run fun c => c == ' ' || c == '\t'

def newline : Reader Unit :=
  char '\n' <|> word "\r\n"

def isCommentChar (c : Char) : Bool :=
  c == '\t' || ('\x20' ≤ c && c != '\x7F')

def comment : Reader Unit := do
  char '#'
  let _ ← run isCommentChar

/-- White space, line ends and whole comments. -/
def gaps : Reader Unit := do
  let gap : Reader Unit :=
    (do let _ ← satisfying fun c => c == ' ' || c == '\t') <|> newline <|>
      (do comment; newline)
  let _ ← many gap

/-- What may follow on a line that is complete. -/
def lineRest : Reader Unit := do
  blanks
  let _ ← option comment
  newline <|> finished

end Managed.Toml
