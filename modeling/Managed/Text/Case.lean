import Managed.Text.CaseTables
import Managed.Text.Ranges

/-!
# Lower case

The lower case of a text is that of its characters, one after the other. Only the capital sigma
looks at its surroundings: at the end of a word it becomes a final sigma.
-/

namespace Managed.Text

/-- The lower case of a code point among the given runs. -/
def lowercaseIn (code : Nat) : List CaseRun → Nat
  | [] => code
  | run :: rest =>
    if code < run.first then code
    else if code ≤ run.last ∧ (code - run.first) % run.step = 0 then (code + run.shift).toNat
    else lowercaseIn code rest

/-- The lower case of a character by itself. -/
def lowercaseChar (c : Char) : List Char :=
  if c = '\u0130' then ['i', '\u0307'] else [Char.ofNat (lowercaseIn c.toNat lowercaseRuns)]

/-- Whether the first character that counts for case has one. -/
def startsCased (text : List Char) : Bool :=
  match text.dropWhile fun c => inRanges c.toNat caseIgnorableRanges with
  | [] => false
  | c :: _ => inRanges c.toNat casedRanges

/-- The lower case of `text`, which follows `before`, a text given backwards. -/
def lowercaseAfter (before : List Char) : List Char → List Char
  | [] => []
  | c :: text =>
    let lower :=
      if c = 'Σ' then [if startsCased before && !startsCased text then 'ς' else 'σ']
      else lowercaseChar c
    lower ++ lowercaseAfter (c :: before) text

def lowercase (text : String) : String :=
  String.ofList (lowercaseAfter [] text.toList)

end Managed.Text
