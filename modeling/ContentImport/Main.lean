import ContentImport.CommandLine

/-!
The program as a command.
-/

set_option autoImplicit false
set_option relaxedAutoImplicit false

namespace ContentImport

/-- What a path leads to. Whatever exists and cannot be read counts as a directory. -/
def readPath (path : String) : IO PathContent := do
  try
    return .file (← IO.FS.readBinFile path).toList
  catch
    | .noFileOrDirectory _ _ _ => return .missing
    | _ => return .directory

end ContentImport

open ContentImport in
/-- Read the files that the arguments name, run the program on them and print its outcome. -/
def main (arguments : List String) : IO UInt32 := do
  let contents ← (CommandLine.readPaths arguments).mapM fun path => do
    return (path, ← readPath path)
  let outcome := CommandLine.run (fun path => (contents.lookup path).getD .missing) arguments
  IO.print outcome.output
  IO.eprint outcome.diagnostics
  return outcome.exitCode.toUInt32
