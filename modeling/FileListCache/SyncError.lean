/-
  FileListCache.SyncError

  Why a sync run cannot start, or why one repository could not be synced.
-/

import FileListCache.Archive.Error

namespace FileListCache

/-- Why a sync run or the sync of a repository failed. -/
inductive SyncError
  | cacheAccess (source : FileError)
  | noServers (repo : String)
  | allMirrorsFailed (repo : String) (attempts : Nat)
  | archive (source : ArchiveError)
  deriving DecidableEq, Repr

namespace SyncError

/-- The sentence a user reads. -/
def message : SyncError → String
  | cacheAccess source => "Cache directory is not usable: " ++ source.message
  | noServers repo => "Repository " ++ repo ++ " has no servers"
  | allMirrorsFailed repo attempts =>
    "Failed to download " ++ repo ++ ".files from any of " ++ toString attempts ++ " mirror(s)"
  | archive source => source.message

/-- The sentences of the errors behind it, nearest first. -/
def causes : SyncError → List String
  | cacheAccess source => source.message :: source.causes
  | noServers _ | allMirrorsFailed .. => []
  | archive source => source.causes

/-- How the error is reported. -/
def diagnostic : SyncError → Diagnostic
  | cacheAccess _ => ⟨"filesdb_operations::cache_access",
      some "Run with sufficient privileges or point cache_path / $FILESDB_CACHE elsewhere"⟩
  | noServers repo => ⟨"filesdb_operations::no_servers",
      some ("Add a Server= line or an Include= directive to the [" ++ repo ++ "] section")⟩
  | allMirrorsFailed .. => ⟨"filesdb_operations::all_mirrors_failed", none⟩
  | archive source => source.diagnostic

end SyncError

end FileListCache
