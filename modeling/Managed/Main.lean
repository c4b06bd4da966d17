import Managed.LineSort.Run

/-!
# The program

Sorts the lines of a file or of standard input.
-/

namespace Managed.LineSort

/-- The bytes of a source, if it can be read. -/
def readSource (source : Source) : IO (Option ByteArray) := do
  try
    match source with
    | .standardInput => return some (← (← IO.getStdin).readBinToEnd)
    | .file path => return some (← IO.FS.readBinFile path)
  catch _ => return none

end Managed.LineSort

open Managed.LineSort in
def main (arguments : List String) : IO UInt32 := do
  let outcome ← run readSource arguments
  match outcome with
  | .printed text => IO.print text
  | .failed failure => IO.eprintln ("Error: " ++ failure.message)
  | .rejected => IO.eprintln "error: invalid command line\n\nUsage: orx-sort [OPTIONS] [FILE]"
  return outcome.exitCode
