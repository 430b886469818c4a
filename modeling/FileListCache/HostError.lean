/-
  FileListCache.HostError

  What the host denies: a path that cannot be resolved, or a file or directory that cannot be used.
-/

import FileListCache.FileError
import FileListCache.PathNotation

namespace FileListCache

/-- Why the host did not give what was asked for. -/
inductive HostError
  | path (source : PathError)
  | file (source : FileError)
  deriving DecidableEq, Repr

namespace HostError

/-- The sentence a user reads. -/
def message : HostError → String
  | path source => source.message
  | file source => source.message

/-- The sentences of the errors behind it, nearest first; the first is that of the error itself. -/
def causes : HostError → List String
  | path source => source.message :: source.causes
  | file source => source.message :: source.causes

end HostError

end FileListCache
