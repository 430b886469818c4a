/-
  FileListCache.DownloadError

  What can go wrong while one document is fetched.
-/

import FileListCache.Diagnostic
import FileListCache.IoError
import FileListCache.Http.Address

namespace FileListCache

/-- Why a document could not be fetched. -/
inductive DownloadError
  | invalidUrl (url : String) (source : UrlError)
  | network (source : Http.NetworkError)
  | http (status : Nat) (url : String)
  | write (path : String) (source : IoError)
  | io (source : IoError)
  | localPath (url : String)
  | read (path : String) (source : IoError)
  deriving DecidableEq, Repr

namespace DownloadError

/-- The sentence a user reads. -/
def message : DownloadError → String
  | invalidUrl url _ => "Invalid URL: " ++ url
  | network source => source.message
  | http status url => "HTTP " ++ toString status ++ ": " ++ url
  | write path source => "Failed to write " ++ path ++ ": " ++ source.message
  | io source => source.message
  | localPath url => "Not a local file path: " ++ url
  | read path source => "Failed to read " ++ path ++ ": " ++ source.message

/-- The sentences of the errors behind it, nearest first. -/
def causes : DownloadError → List String
  | invalidUrl _ source => [source.message]
  | write _ source | read _ source => [source.message]
  | network _ | http .. | io _ | localPath _ => []

/-- How the error is reported. -/
def diagnostic : DownloadError → Diagnostic
  | invalidUrl .. => ⟨"filesdb_dl::invalid_url", none⟩
  | network _ => ⟨"filesdb_dl::network", some "Check your internet connection or try again later"⟩
  | http .. => ⟨"filesdb_dl::http_error", none⟩
  | write .. => ⟨"filesdb_dl::write", some "Check free space in the cache directory"⟩
  | io _ => ⟨"filesdb_dl::io", none⟩
  | localPath _ => ⟨"filesdb_dl::local_path", none⟩
  | read .. => ⟨"filesdb_dl::read", none⟩

end DownloadError

end FileListCache
