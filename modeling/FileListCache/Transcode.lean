/-
  FileListCache.Transcode

  Rewriting an archive without its compression. The members are copied to a second file beside the
  first, which then takes the first one's name; a copy that fails is removed and leaves the first
  file as it was.
-/

import FileListCache.Archive.Opened

namespace FileListCache.Transcode

/-- What a rewritten archive holds. -/
structure Report where
  entries : Nat
  bytes : Nat
  deriving DecidableEq, Repr

/-- What a list of members amounts to. -/
def Report.ofMembers (ms : List Archive.Member) : Report :=
  ⟨ms.countP fun m => m.header.isEntry, ms.foldr (fun m n => m.payload.length + n) 0⟩

/-- The name of the copy beside an archive. -/
def copyPath (path : String) : String := path ++ "~"

/-! ## Copying -/

/-- Which side ended a copy. A copy whose source failed can still be written to. -/
inductive Failure
  | source (e : IoError) (writer : Disk.Writer)
  | destination (e : IoError)
  deriving DecidableEq, Repr

/-- Writes bytes of the copy. -/
def put (w : Disk.Writer) (bytes : Bytes) : Attempt Failure Disk.Writer :=
  (w.push bytes).adapt Failure.destination

/-- The state of work on one member: the writer, and what was noticed of the payload. -/
structure Copying where
  writer : Disk.Writer
  /-- How many bytes of the payload were read. -/
  count : Nat := 0
  /-- The error that ended the payload early. -/
  error : Option IoError := none
  deriving DecidableEq, Repr

/-- Work on one member. It fails in one way only, whichever side is to blame. -/
abbrev Copy := ExceptT IoError (StateT Copying Run)

/-- What stands for an error of the payload among those of the writer. -/
def readFailed : IoError := .custom "source archive read failed"

/-- What reading a payload gives: its bytes in pieces, and the error that ends them early. -/
def readings (arrival : Bytes.Arrival) (m : Archive.Member) : List (Except IoError Bytes) :=
  (arrival.pieces m.payload).map .ok ++ (m.failure.map .error).toList

namespace Copy

/-- Takes what reading gives next. Bytes are counted; an error is kept apart. -/
def read : Except IoError Bytes → Copy Bytes
  | .ok piece => do
    modify fun c => { c with count := c.count + piece.length }
    return piece
  | .error e => do
    modify fun c => { c with error := some e }
    throw readFailed

/-- Writes bytes of the copy. -/
def write (bytes : Bytes) : Copy Unit := do
  let c ← get
  let writer ← ExceptT.mk (StateT.lift (c.writer.push bytes).run)
  set { c with writer }

/-- Adds a member: the header as it is, the payload as far as it can be read, and zeros up to the
next block. -/
def append (arrival : Bytes.Arrival) (m : Archive.Member) : Copy Unit := do
  write m.header.bytes
  (readings arrival m).forM fun r => do write (← read r)
  write (List.replicate (Archive.Member.paddingOf (← get).count) 0)

end Copy

/-- Copies one member. An error of the payload is told from one of the writer by what was kept of
it, and a payload that is too short by its length. -/
def copyMember (arrival : Bytes.Arrival) (w : Disk.Writer) (m : Archive.Member) :
    Attempt Failure Disk.Writer := do
  World.note .trace .transcode ("copying " ++ Utf8.lossy m.header.name)
  let (outcome, c) ← ((Copy.append arrival m).run.run { writer := w } : Run _)
  if let some e := c.error then throw (.source e c.writer)
  if let .error e := outcome then throw (.destination e)
  if c.count = m.size then return c.writer
  else throw (.source (.memberCutShort c.count m.size) c.writer)

/-- Ends the copy. -/
def finish (w : Disk.Writer) : Attempt Failure Unit := do
  let w ← put w Archive.ending
  discard (w.flush.adapt Failure.destination)

/-- Copies the members of a stream; the copy is whole if the stream ends as an archive does. -/
def copyStream (arrival : Bytes.Arrival) (s : Archive.Stream) (w : Disk.Writer) :
    Attempt Failure Report := do
  let (members, stop) := Archive.members s
  let w ← members.foldlM (copyMember arrival) w
  if let some e := stop then throw (.source e w)
  finish w
  return .ofMembers members

/-- Copies the archive at `source` to a new file at `target`. A copy that its source ended early
is still ended like an archive before it is given up. -/
def copyArchive (h : Host) (source target : String) : Attempt ArchiveError Report := do
  let opened ← Archive.openAt h source
  let sink ← (Disk.create h target).adapt (ArchiveError.write target)
  match ← (copyStream h.arrival (opened.stream (← get).tree) { sink }).run with
  | .ok report => return report
  | .error (.destination e) => throw (.write target e)
  | .error (.source e w) => do
    discard (finish w).run
    throw (.read source e)

/-! ## Replacing -/

/-- Rewrites an archive in its place. -/
def inPlace (h : Host) (path : String) : Attempt ArchiveError Report := do
  let copy := copyPath path
  let report ← tryCatch (copyArchive h path copy) fun e => do
    if let .error removal ← (Files.remove h copy).run then
      World.note .warn .transcode removal.message
    throw e
  (Disk.rename h copy path).adapt (ArchiveError.rename copy path report.entries)
  World.note .debug .transcode
    ("rewrote " ++ path ++ " (" ++ toString report.entries ++ " entries, " ++
      toString report.bytes ++ " bytes)")
  return report

end FileListCache.Transcode
