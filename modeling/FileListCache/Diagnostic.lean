/-
  FileListCache.Diagnostic

  What an error report shows besides the sentence: a code that names the error and, where the
  user can do something, a hint.
-/

namespace FileListCache

/-- The code of an error and a hint for the user. -/
structure Diagnostic where
  code : String
  help : Option String := none
  deriving DecidableEq, Repr

end FileListCache
