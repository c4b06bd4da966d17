/-!
# Lines

A line ends with a line feed, or with a carriage return and a line feed. The last line may go
without.
-/

namespace Managed.Text

/-- The lines of a text whose first line starts with `started`, given backwards. -/
def linesAfter (started : List Char) : List Char → List (List Char)
  | [] => if started.isEmpty then [] else [started.reverse]
  | '\n' :: text =>
    let line := if started.head? = some '\r' then started.tail else started
    line.reverse :: linesAfter [] text
  | c :: text => linesAfter (c :: started) text

def lines (text : String) : List String :=
  (linesAfter [] text.toList).map String.ofList

end Managed.Text
