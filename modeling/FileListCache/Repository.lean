/-
  FileListCache.Repository

  A repository and the servers that offer it, the choice among repositories by name, and the
  address of a repository's file list on a server.
-/

namespace FileListCache

/-- A named source of packages. Its servers are templates, in the order in which they are tried. -/
structure Repository where
  name : String
  servers : List String := []
  deriving DecidableEq, Repr

/-- The end of the names of file lists. -/
def fileListSuffix : String := ".files"

namespace Repository

/-- The name of the repository's file list in the cache. -/
def fileName (r : Repository) : String := r.name ++ fileListSuffix

/-- The repositories with the given names, or all if no name is given; the order stays. The error
is the first name that no repository has. -/
def select (repositories : List Repository) (names : List String) :
    Except String (List Repository) :=
  if names.isEmpty then .ok repositories
  else
    match names.find? fun n => !repositories.any fun r => r.name = n with
    | some missing => .error missing
    | none => .ok (repositories.filter fun r => names.contains r.name)

end Repository

namespace UrlTemplate

/-- Every `old` in a text, from the left, replaced by `new`; what was put in is not looked at
again. -/
def replace (old new : List Char) (text : List Char) : List Char :=
  match text with
  | [] => []
  | c :: rest =>
    if old.isPrefixOf (c :: rest) then new ++ replace old new (rest.drop (old.length - 1))
    else c :: replace old new rest
termination_by text.length

/-- The address of a file list: the template with the architecture and then the repository put
in, a slash, and the file's name. -/
def expand (template repository architecture suffix : String) : String :=
  let withArch := replace "$arch".toList architecture.toList template.toList
  let withRepo := replace "$repo".toList repository.toList withArch
  String.ofList withRepo ++ "/" ++ repository ++ suffix

end UrlTemplate

end FileListCache
