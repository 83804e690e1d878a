/-!
# Written paths

A path is kept as it is written, because messages show it so. Slashes divide it
into segments; `.` stands for the folder itself and `..` for the one around it.
-/

namespace SingleFile.Workspace

/-- The texts between the slashes of a path. -/
def segments (path : String) : List String :=
  (path.toList.splitOn '/').map String.ofList

/-- Segments without those at the end that lead nowhere. The first one always counts. -/
def dropIdle : List String → List String
  | [] => []
  | first :: rest =>
    first :: (rest.reverse.dropWhile fun segment => segment = "" || segment = ".").reverse

/-- The path of the folder that a path names an entry of, if it is written. -/
def parent? (path : String) : Option String :=
  let folder := String.intercalate "/" (dropIdle (dropIdle (segments path)).dropLast)
  if folder = "" then none else some folder

/-- Whether a segment can name an entry of a folder. Names have at most 255 bytes. -/
def isName (segment : String) : Bool :=
  segment ≠ "" && segment ≠ "." && segment ≠ ".." && segment.utf8ByteSize ≤ 255

/-- Whether a path can be followed at all: it starts at the working directory, has no
null character and at most 4095 bytes. Otherwise it is refused as a whole, before any
of its segments counts. -/
def isUsable (path : String) : Bool :=
  path.toList.head? ≠ some '/' && path.toList.all (·.toNat ≠ 0) && path.utf8ByteSize ≤ 4095

end SingleFile.Workspace
