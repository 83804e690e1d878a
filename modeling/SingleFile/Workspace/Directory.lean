import SingleFile.Workspace.Path

/-!
# Directories

A working directory as a value: which files and folders it has, and what the files
hold. Reading, writing and making folders follow paths through it. A path that
leaves the directory leads nowhere.
-/

namespace SingleFile.Workspace

/-- Where an entry is: the names from the working directory down to it. -/
abbrev Location := List String

/-- What can stand at a location. -/
inductive Entry where
  | file (bytes : ByteArray)
  | folder

/-- The entries below a working directory. -/
structure Directory where
  entries : List (Location × Entry)

namespace Directory

/-- The directory without entries. -/
def empty : Directory := ⟨[]⟩

/-- What stands at a location. The working directory itself is a folder. -/
def entry? (directory : Directory) (location : Location) : Option Entry :=
  if location = [] then some .folder else directory.entries.lookup location

/-- Whether a folder stands at a location. -/
def isFolder (directory : Directory) (location : Location) : Bool :=
  match directory.entry? location with
  | some .folder => true
  | _ => false

/-- The content of the file at a location. -/
def content? (directory : Directory) (location : Location) : Option ByteArray :=
  match directory.entry? location with
  | some (.file bytes) => some bytes
  | _ => none

/-- Entries with the one at `location` replaced, or added at the end. -/
def put (location : Location) (entry : Entry) :
    List (Location × Entry) → List (Location × Entry)
  | [] => [(location, entry)]
  | (other, old) :: entries =>
    if other = location then (location, entry) :: entries
    else (other, old) :: put location entry entries

/-- Put an entry at a location, in place of what stands there. -/
def set (directory : Directory) (location : Location) (entry : Entry) : Directory :=
  ⟨put location entry directory.entries⟩

/-- All files with their locations. -/
def files (directory : Directory) : List (Location × ByteArray) :=
  directory.entries.filterMap fun
    | (location, .file bytes) => some (location, bytes)
    | (_, .folder) => none

/-- The location that one more segment leads to. -/
def follow (location : Location) (segment : String) : Option Location :=
  if segment = "" || segment = "." then some location
  else if segment = ".." then
    if location = [] then none else some location.dropLast
  else some (location ++ [segment])

/-- The location at the end of the segments. Only folders can be passed through. -/
def walk? (directory : Directory) (location : Location) : List String → Option Location
  | [] => some location
  | segment :: segments =>
    if directory.isFolder location then
      (follow location segment).bind fun next => directory.walk? next segments
    else none

/-- The location of a path. -/
def locate? (directory : Directory) (path : String) : Option Location :=
  if isUsable path then directory.walk? [] (segments path) else none

/-- The content of the file at a path. -/
def read? (directory : Directory) (path : String) : Option ByteArray :=
  (directory.locate? path).bind directory.content?

/-- Make the folders that the segments name and that are missing. What was made stays
when a later segment cannot be followed. -/
def makeFoldersAt (directory : Directory) (location : Location) :
    List String → Directory × Bool
  | [] => (directory, directory.isFolder location)
  | segment :: segments =>
    match follow location segment with
    | none => (directory, false)
    | some next =>
      match directory.entry? next with
      | some .folder => directory.makeFoldersAt next segments
      | some (.file _) => (directory, false)
      | none =>
        if isName segment then (directory.set next .folder).makeFoldersAt next segments
        else (directory, false)

/-- Make the folder at a path, and those around it, where they are missing; and whether
it is there then. -/
def makeFolders (directory : Directory) (path : String) : Directory × Bool :=
  if isUsable path then directory.makeFoldersAt [] (segments path) else (directory, false)

/-- The location of the file that a path names, whether it is there or not: a name in a
folder that is there. -/
def target? (directory : Directory) (path : String) : Option Location :=
  match (segments path).getLast? with
  | none => none
  | some name =>
    if isUsable path && isName name then
      match directory.walk? [] (segments path).dropLast with
      | none => none
      | some folder =>
        if directory.isFolder folder && !directory.isFolder (folder ++ [name]) then
          some (folder ++ [name])
        else none
    else none

/-- Write a file, new or in place of an old one. -/
def write? (directory : Directory) (path : String) (bytes : ByteArray) : Option Directory :=
  (directory.target? path).map fun location => directory.set location (.file bytes)

/-- Write a file, after making the folders around it; nothing changes where that fails. -/
def addFile (directory : Directory) (path : String) (bytes : ByteArray) : Directory :=
  let ready :=
    match parent? path with
    | none => directory
    | some folder => (directory.makeFolders folder).1
  (ready.write? path bytes).getD directory

/-- The directory with these files. -/
def ofFiles (files : List (String × ByteArray)) : Directory :=
  files.foldl (fun directory file => directory.addFile file.1 file.2) empty

end Directory

end SingleFile.Workspace
