import SingleFile.Command.Invocation

/-!
# The program

The command line on the machine's own file system. Everything that is decided is
decided in `Command`; here it meets the outside.
-/

namespace SingleFile.Workspace

/-- Whether an action succeeds. -/
def succeeds (action : IO Unit) : IO Bool := do
  try
    action
    return true
  catch _ => return false

/-- The machine's file system, seen from the working directory. -/
instance : Storage IO where
  read path := do
    try
      return some (← IO.FS.readBinFile path)
    catch _ => return none
  makeFolders path := succeeds (IO.FS.createDirAll path)
  write path bytes := succeeds (IO.FS.writeBinFile path bytes)

end SingleFile.Workspace

/-- Run the program with its command line. -/
def main (arguments : List String) : IO UInt32 := do
  let outcome ← SingleFile.Command.runArguments arguments
  IO.print outcome.stdout
  IO.eprint outcome.stderr
  return outcome.exit.toUInt32
