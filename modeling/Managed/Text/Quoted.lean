import Managed.Text.DisplayTables
import Managed.Text.Ranges

/-!
# Quoted texts

A text is quoted between double quotes. Quotes, backslashes and the usual control characters get a
backslash; characters that cannot be shown, or that would combine with the one before them, are
written by their code points.
-/

namespace Managed.Text

/-- Whether a character is shown as it is. -/
def isShown (c : Char) : Bool :=
  !inRanges c.toNat extenderRanges && !inRanges c.toNat unprintableRanges

/-- A character by its code point, as in `\u{301}`. -/
def codePoint (c : Char) : List Char :=
  "\\u\x7b".toList ++ Nat.toDigits 16 c.toNat ++ "\x7d".toList

def quotedChar (c : Char) : List Char :=
  match c with
  | '\x00' => ['\\', '0']
  | '\t' => ['\\', 't']
  | '\r' => ['\\', 'r']
  | '\n' => ['\\', 'n']
  | '"' => ['\\', '"']
  | '\\' => ['\\', '\\']
  | c => if isShown c then [c] else codePoint c

def quoted (text : String) : String :=
  String.ofList (['"'] ++ text.toList.flatMap quotedChar ++ ['"'])

end Managed.Text
