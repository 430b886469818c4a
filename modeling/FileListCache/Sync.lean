/-
  FileListCache.Sync

  A sync run: every repository is downloaded and its archive rewritten, one after the other. A
  repository that fails does not stop the run.
-/

import FileListCache.Download
import FileListCache.Transcode

namespace FileListCache.Sync

/-- What a run came to: the repositories that were synced, and those that were not with the
reason. -/
structure Report where
  synced : List String := []
  failed : List (String × String) := []
  deriving DecidableEq, Repr

/-- Whether every repository was synced. -/
def Report.isSuccess (r : Report) : Bool := r.failed.isEmpty

/-- What a rewriting came to. When only the last exchange of files failed, the complete rewriting
stays beside the archive and counts. -/
def entriesOf (h : Host) (path : String) : Attempt SyncError Nat := do
  match ← (Transcode.inPlace h path).run with
  | .ok report => return report.entries
  | .error (.rename source target entries reason) => do
    World.note .error .sync
      ("failed to rename " ++ source ++ " to " ++ target ++ ": " ++ reason.message)
    return entries
  | .error e => throw (.archive e)

/-- Syncs one repository; gives the number of its entries. -/
def repository {σ : Type} (h : Host) (fetch : Fetch σ) (g : Download.Goal) (repo : Repository) :
    ExceptT SyncError (StateT σ Run) Nat := do
  let path ← Download.run h fetch g repo
  World.emit (.transcoding repo.name)
  ExceptT.mk (StateT.lift (entriesOf h path).run)

/-- Adds what one repository came to. -/
def record {σ : Type} (r : Report) (repo : Repository) :
    Except SyncError Nat → StateT σ Run Report
  | .ok entries => do
    World.note .debug .sync (repo.name ++ " synced with " ++ toString entries ++ " entries")
    World.emit (.synced repo.name entries)
    return { r with synced := r.synced ++ [repo.name] }
  | .error e => do
    World.note .error .sync ("failed to sync " ++ repo.name ++ ": " ++ e.message)
    World.emit (.failed repo.name e.message)
    return { r with failed := r.failed ++ [(repo.name, e.message)] }

/-- Syncs repositories in order. -/
def all {σ : Type} (h : Host) (fetch : Fetch σ) (g : Download.Goal) (repos : List Repository) :
    StateT σ Run Report := do
  let report ← repos.foldlM (fun r repo => do record r repo (← (repository h fetch g repo).run)) {}
  World.note .info .sync (toString report.synced.length ++ " of " ++ toString repos.length ++
    " repositories synced")
  return report

/-- Checks that the cache can be written to. -/
def checkCache (h : Host) (g : Download.Goal) : Attempt SyncError Unit := do
  ((Files.ensureWritable h (← get).tree g.cache).mapError .cacheAccess : Except SyncError Unit)

/-- Syncs repositories with a given way to fetch, if the cache can be written to. -/
def runWith {σ : Type} (h : Host) (fetch : Fetch σ) (g : Download.Goal) (repos : List Repository) :
    ExceptT SyncError (StateT σ Run) Report := do
  ExceptT.mk (StateT.lift (checkCache h g).run)
  all h fetch g repos

/-- The repository that a file list belongs to. -/
def repositoryOf (filename : String) : String :=
  let name := filename.toList
  let suffix := fileListSuffix.toList
  if suffix.isSuffixOf name then String.ofList (name.take (name.length - suffix.length))
  else filename

/-- Tells those who watch how far a transfer has come. -/
def tellProgress (p : Progress) : Run Unit :=
  World.emit (.progress (repositoryOf p.filename) p.filename p.current p.total)

/-- The fetcher of a run; progress is told in interactive runs only. -/
def fetcher (client : Http.Client) (g : Download.Goal) (interactive : Bool) : Fetcher :=
  { cache := g.cache, client
    onProgress := if interactive then tellProgress else fun _ => pure () }

/-- Syncs repositories from their servers. -/
def run (h : Host) (client : Http.Client) (interactive : Bool) (g : Download.Goal)
    (repos : List Repository) : Attempt SyncError Report := do
  let fetch : Fetch Unit := (fetcher client g interactive).toFetch h
  ExceptT.mk (do
    let (outcome, _) ← (runWith h fetch g repos).run.run ()
    return outcome)

end FileListCache.Sync
