/-
  FileListCache.Download

  Downloading the file list of a repository: its servers are asked in order until one delivers.
  An old list is removed before each attempt, so a list that is there was just delivered.
-/

import FileListCache.Fetch
import FileListCache.Repository
import FileListCache.SyncError

namespace FileListCache

/-- A way to fetch: given an address and a file name, where the document was put. It may remember
something from one document to the next. -/
abbrev Fetch (σ : Type) := String → String → ExceptT DownloadError (StateT σ Run) String

/-- Fetching with a fetcher, which remembers nothing. -/
def Fetcher.toFetch {σ : Type} (h : Host) (f : Fetcher) : Fetch σ := fun url filename =>
  ExceptT.mk (StateT.lift (f.fetch h url filename).run)

namespace Download

/-- Where a file list is put, and for which architecture it is asked. -/
structure Goal where
  cache : String
  architecture : String
  deriving DecidableEq, Repr

/-- The address of a repository's file list on a server. -/
def Goal.url (g : Goal) (repo : Repository) (server : String) : String :=
  UrlTemplate.expand server repo.name g.architecture fileListSuffix

/-- The path of a repository's file list. -/
def Goal.path (g : Goal) (repo : Repository) : String := Path.join g.cache repo.fileName

/-- Asks the given servers in order. -/
def fromServers {σ : Type} (h : Host) (fetch : Fetch σ) (g : Goal) (repo : Repository) :
    List String → ExceptT SyncError (StateT σ Run) String
  | [] => throw (.allMirrorsFailed repo.name repo.servers.length)
  | server :: servers => do
    let url := g.url repo server
    if let .error e ← (Files.remove h (g.path repo)).run then
      World.note .warn .download e.message
    World.note .debug .download ("trying " ++ url)
    match ← (fetch url repo.fileName).run with
    | .ok path => do
      World.emit (.downloaded repo.name url)
      return path
    | .error e => do
      World.note .warn .download ("failed to download: " ++ url)
      World.note .debug .download (url ++ ": " ++ e.message)
      World.emit (.mirrorFailed repo.name url e.message)
      fromServers h fetch g repo servers

/-- Downloads the file list of a repository; gives its path. -/
def run {σ : Type} (h : Host) (fetch : Fetch σ) (g : Goal) (repo : Repository) :
    ExceptT SyncError (StateT σ Run) String := do
  World.emit (.downloading repo.name)
  if repo.servers.isEmpty then throw (.noServers repo.name)
  fromServers h fetch g repo repo.servers

end Download

end FileListCache
