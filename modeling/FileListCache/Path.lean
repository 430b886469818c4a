/-
  FileListCache.Path

  Paths as users write them: texts with slashes. What a path names is decided by the tree it is
  looked up in; here is only how paths are put together and taken apart.
-/

namespace FileListCache.Path

/-- Whether a path starts at the root. -/
def isAbsolute (p : String) : Bool := p.toList.head? = some '/'

/-- The path `p` seen from the directory `base`. An absolute path stays as it is, and one slash
is put between the two unless `base` ends with one or is empty. -/
def join (base p : String) : String :=
  if isAbsolute p || base.toList.isEmpty then p
  else if base.toList.getLast? = some '/' then base ++ p
  else base ++ "/" ++ p

/-- The pieces of a path between its slashes. -/
def pieces (p : String) : List String := (p.toList.splitOn '/').map String.ofList

/-- Whether a path asks for a directory by a slash at its end. -/
def endsInSlash (p : String) : Bool := p.toList.getLast? = some '/'

end FileListCache.Path
