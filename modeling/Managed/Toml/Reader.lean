/-!
# Reading text piece by piece

A reader takes a piece off the front of a text, or fails and takes nothing.
-/

namespace Managed.Toml

abbrev Reader : Type → Type :=
  StateT (List Char) Option

namespace Reader

variable {β : Type}

def satisfying (p : Char → Bool) : Reader Char
  | c :: rest => if p c then some (c, rest) else none
  | [] => none

def char (c : Char) : Reader Unit := do
  let _ ← satisfying (· == c)

def word (text : String) : Reader Unit :=
  text.toList.forM char

/-- The longest run of characters with a property. -/
def run (p : Char → Bool) : Reader (List Char) := fun text =>
  some (text.span p)

/-- Reads pieces as long as the reader succeeds and takes something. -/
def many (piece : Reader β) (text : List Char) : Option (List β × List Char) :=
  match piece text with
  | none => some ([], text)
  | some (b, rest) =>
    if rest.length < text.length then do
      let (bs, rest) ← many piece rest
      return (b :: bs, rest)
    else some ([], text)
termination_by text.length

def option (piece : Reader β) : Reader (Option β) :=
  (some <$> piece) <|> pure none

/-- Pieces with a separator between them, possibly none. -/
def separated (separator : Reader Unit) (piece : Reader β) : Reader (List β) :=
  (do
    let first ← piece
    let rest ← many (do separator; piece)
    return first :: rest) <|> pure []

/-- A given number of characters with a property. -/
def exactly (p : Char → Bool) : Nat → Reader (List Char)
  | 0 => pure []
  | n + 1 => do
    let c ← satisfying p
    return c :: (← exactly p n)

/-- Succeeds at the end of the text. -/
def finished : Reader Unit
  | [] => some ((), [])
  | _ => none

end Reader

end Managed.Toml
