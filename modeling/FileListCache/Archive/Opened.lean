/-
  FileListCache.Archive.Opened

  Opening an archive. The file is opened twice, first for the bytes that tell its compression and
  then for its content, so what is read need not be what was looked at.
-/

import FileListCache.Archive.Error
import FileListCache.Archive.Member
import FileListCache.Compression
import FileListCache.Files

namespace FileListCache.Archive

/-- An archive that is open for reading. -/
structure Opened where
  path : String
  compression : Compression
  source : Disk.Source
  deriving DecidableEq, Repr

/-- Opens an archive. -/
def openAt (h : Host) (path : String) : Attempt ArchiveError Opened := do
  let start ← (Files.signature h path Compression.signatureLength).adapt ArchiveError.badFile
  if start.isEmpty then throw (.empty path)
  let compression := Compression.detect start
  World.note .trace .archive (path ++ " is " ++ compression.name ++ " compressed")
  let source ← (Disk.openRead h path).adapt (ArchiveError.unopened path)
  return ⟨path, compression, source⟩

/-- What a compressed file with the given contents gives its reader. -/
def Stream.ofContents (compression : Compression) (contents : Bytes) : Stream :=
  let decoded := compression.decode contents
  ⟨decoded.bytes, decoded.failure.map .stream⟩

/-- What an open archive gives its reader. -/
def Opened.stream (o : Opened) (t : Tree) : Stream :=
  match Disk.contentOf t o.source with
  | .ok contents => .ofContents o.compression contents
  | .error e => ⟨[], some e⟩

/-- Asks for the members once more, after all that can be read of a stream was read: only an
archive of which nothing was read has members still, and those are none. -/
def membersAgain (path : String) (s : Stream) : Except ArchiveError (List Member) :=
  if s.bytes.isEmpty then .ok [] else .error (.read path .membersReadTwice)

end FileListCache.Archive
