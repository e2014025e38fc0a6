import TemplateMarkup.CommandLine

/-!
The program: it reads files for `CommandLine.run` and prints what that returns.
-/

namespace TemplateMarkup.CommandLine

/-- The code of the error that a path leads through something that is not a directory. -/
def notADirectory : UInt32 := -20

/-- Reads what there is at a path of the file system. A path that cannot lead anywhere, because of its
length or because a file stands in its way, has nothing at its end. -/
def readPath (path : String) : IO FileContent := do
  try
    return .bytes (← IO.FS.readBinFile path)
  catch
    | .noFileOrDirectory .. | .invalidArgument .. => return .missing
    | .inappropriateType _ code _ =>
      return if code = notADirectory then .missing else .unreadable
    | _ => return .unreadable

end TemplateMarkup.CommandLine

open TemplateMarkup.CommandLine in
def main (arguments : List String) : IO UInt32 := do
  let outcome ← run (← IO.getEnv "HOME") readPath arguments
  IO.print outcome.output
  for line in outcome.errors do
    IO.eprintln line
  return outcome.status
