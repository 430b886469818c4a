/-
  FileListCache.FileError

  What is reported when a file or directory cannot be used as it should be.
-/

import FileListCache.IoError

namespace FileListCache

/-- Why a file or directory could not be used. -/
inductive FileError
  | file (path action : String) (source : IoError)
  | directory (path action : String) (source : IoError)
  | notADirectory (path : String)
  | notWritable (path : String) (source : OsError)
  deriving DecidableEq, Repr

namespace FileError

/-- The sentence a user reads. -/
def message : FileError → String
  | file path action source =>
    "Failed to " ++ action ++ " file `" ++ path ++ "`: " ++ source.message
  | directory path action source =>
    "Failed to " ++ action ++ " directory `" ++ path ++ "`: " ++ source.message
  | notADirectory path => "`" ++ path ++ "` is not a directory"
  | notWritable path source => "Unable to write to `" ++ path ++ "`: " ++ source.named

/-- The sentences of the errors behind it, nearest first. -/
def causes : FileError → List String
  | file _ _ source | directory _ _ source => [source.message]
  | notADirectory _ => []
  | notWritable _ source => [source.named]

end FileError

end FileListCache
