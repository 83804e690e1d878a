import SingleFile.Workspace.Directory

/-!
# Access to files

What commands need of a file system. A directory held as state provides it, and so
does the file system of the machine.
-/

namespace SingleFile.Workspace

/-- Reading and writing files by path. -/
class Storage (m : Type → Type) where
  /-- The content of a file, if it can be read. -/
  read : String → m (Option ByteArray)
  /-- Make a folder and those around it; whether it is there then. -/
  makeFolders : String → m Bool
  /-- Write a file; whether that succeeds. -/
  write : String → ByteArray → m Bool

instance : Storage (StateM Directory) where
  read path := do return (← get).read? path
  makeFolders path := modifyGet fun directory =>
    ((directory.makeFolders path).2, (directory.makeFolders path).1)
  write path bytes := modifyGet fun directory =>
    match directory.write? path bytes with
    | some written => (true, written)
    | none => (false, directory)

end SingleFile.Workspace
