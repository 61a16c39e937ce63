import CausalTrace.Command

/-!
# The program

Reads the files that the arguments may name, runs the command, and prints.
-/

namespace CausalTrace

/-- The text of a file, if it can be read. -/
def readText? (path : String) : IO (Option String) := do
  try
    return some (← IO.FS.readFile path)
  catch _ => return none

end CausalTrace

open CausalTrace in
def main (args : List String) : IO UInt32 := do
  let texts ← args.mapM fun path => do return (path, ← readText? path)
  match Command.run (fun path => (texts.lookup path).join) args with
  | .ok printed =>
      IO.print printed.out
      IO.eprint printed.err
      return 0
  | .error failure =>
      IO.eprintln ("Error: " ++ failure.text)
      return 1
