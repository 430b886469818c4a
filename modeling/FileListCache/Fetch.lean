/-
  FileListCache.Fetch

  Fetching one document into the cache. What arrives is written to a second file beside the final
  one and takes the final name only when it is complete; a transfer that fails is removed.
-/

import FileListCache.DownloadError
import FileListCache.Files
import FileListCache.Http.Client

namespace FileListCache

/-- How far the transfer of a file has come. A total of zero is unknown. -/
structure Progress where
  filename : String
  current : Nat
  total : Nat
  deriving DecidableEq, Repr

/-- Fetches documents into a directory. -/
structure Fetcher where
  cache : String
  client : Http.Client := {}
  /-- What happens at each report of progress. -/
  onProgress : Progress → Run Unit := fun _ => pure ()

/-- A document on its way: a local file or the body of a reply. -/
inductive Incoming
  | file (source : Disk.Source)
  | body (body : Http.Body)
  deriving DecidableEq, Repr

namespace Incoming

/-- The bytes that arrive, and the error that ends them early. -/
def content (t : Tree) : Incoming → Http.Body
  | file source =>
    match Disk.contentOf t source with
    | .ok bytes => ⟨bytes, none⟩
    | .error e => ⟨[], some e⟩
  | body b => b

end Incoming

namespace Fetcher

/-- The path of the final file. -/
def outputPath (f : Fetcher) (filename : String) : String := Path.join f.cache filename

/-- The path of the file that holds what has arrived. -/
def partPath (f : Fetcher) (filename : String) : String := Path.join f.cache (filename ++ ".part")

/-- Whether a status says that there is no document. -/
def isRefusal (status : Nat) : Bool := 400 ≤ status && status < 600

/-- Opens the document at an address; gives the length that it is said to have. -/
def openUrl (h : Host) (f : Fetcher) (u : Url) : Attempt DownloadError (Incoming × Nat) := do
  if u.scheme = "file" then
    match u.filePath? with
    | none => throw (.localPath u.toText)
    | some path =>
      let source ← (Disk.openRead h path).adapt (DownloadError.read path)
      return (.file source, Disk.sizeOf (← get).tree source)
  else
    let reply ← (f.client.get h u).adapt DownloadError.network
    let body ← (reply.body.mapError .network : Except DownloadError Http.Body)
    if isRefusal reply.status then throw (.http reply.status u.toText)
    return (.body body, reply.statedLength)

/-- Writes one chunk and reports it. -/
def takeChunk (f : Fetcher) (part filename : String) (total : Nat) (state : Disk.Writer × Nat)
    (chunk : Bytes) : Attempt DownloadError (Disk.Writer × Nat) := do
  let w ← (state.1.push chunk).adapt (DownloadError.write part)
  let current := state.2 + chunk.length
  f.onProgress ⟨filename, current, total⟩
  return (w, current)

/-- Writes a document to the file at `part`; gives its length. -/
def receive (h : Host) (f : Fetcher) (u : Url) (filename part : String) :
    Attempt DownloadError Nat := do
  let (incoming, total) ← f.openUrl h u
  let sink ← (Disk.create h part).adapt (DownloadError.write part)
  f.onProgress ⟨filename, 0, total⟩
  let content := incoming.content (← get).tree
  let (w, size) ← (h.arrival.pieces content.bytes).foldlM (f.takeChunk part filename total)
    ({ sink }, 0)
  match content.failure with
  | some e => do
    -- What had arrived is written as far as it can be; that may fail without notice.
    discard w.flush.run
    throw (.io e)
  | none => do
    w.close.adapt (DownloadError.write part)
    return size

/-- Fetches the document at an address into the file with the given name. -/
def fetch (h : Host) (f : Fetcher) (url filename : String) : Attempt DownloadError String := do
  match Url.ofText url with
  | .error e => throw (.invalidUrl url e)
  | .ok u => do
    let output := f.outputPath filename
    let part := f.partPath filename
    World.note .debug .fetch ("fetching " ++ url ++ " into " ++ output)
    let size ← tryCatch (f.receive h u filename part) fun e => do
      if let .error removal ← (Files.remove h part).run then
        World.note .debug .fetch removal.message
      throw e
    World.note .trace .fetch ("received " ++ toString size ++ " bytes from " ++ url)
    (Disk.rename h part output).adapt (DownloadError.write output)
    return output

end Fetcher

end FileListCache
