/-
  FileListCache.Archive.Error

  What can go wrong while an archive is read or rewritten. The error says which side failed: the
  file that is read, the copy that is written, or the exchange of the two.
-/

import FileListCache.Diagnostic
import FileListCache.FileError

namespace FileListCache

/-- Why an archive could not be read or rewritten. -/
inductive ArchiveError
  | unopened (path : String) (source : IoError)
  | empty (path : String)
  | read (path : String) (source : IoError)
  | write (path : String) (source : IoError)
  | rename (source target : String) (entries : Nat) (reason : IoError)
  | badFile (source : FileError)
  deriving DecidableEq, Repr

namespace ArchiveError

/-- The sentence a user reads. -/
def message : ArchiveError → String
  | unopened path source => "Failed to open " ++ path ++ " for reading: " ++ source.message
  | empty path => path ++ " is empty"
  | read path source => "Failed to read archive " ++ path ++ ": " ++ source.message
  | write path source => "Failed to write archive " ++ path ++ ": " ++ source.message
  | rename source target _ reason =>
    "Failed to rotate " ++ source ++ " into " ++ target ++ ": " ++ reason.message
  | badFile source => source.message

/-- The sentences of the errors behind it, nearest first. -/
def causes : ArchiveError → List String
  | unopened _ source | read _ source | write _ source | rename _ _ _ source => [source.message]
  | empty _ => []
  | badFile source => source.causes

/-- How the error is reported. -/
def diagnostic : ArchiveError → Diagnostic
  | unopened .. => ⟨"filesdb_archive::open", none⟩
  | empty _ => ⟨"filesdb_archive::empty", some "The mirror served an empty file; try syncing again"⟩
  | read .. => ⟨"filesdb_archive::read",
      some "The downloaded archive may be corrupted or truncated"⟩
  | write .. => ⟨"filesdb_archive::write",
      some "Check free space and permissions of the cache directory"⟩
  | rename .. => ⟨"filesdb_archive::rename",
      some "The rewritten copy was left next to the original"⟩
  | badFile _ => ⟨"filesdb_archive::fs", none⟩

end ArchiveError

end FileListCache
