/-
  FileListCache.Files

  The three services that the rest of the program builds on: removing whatever a path names,
  checking a directory before it is written to, and reading the start of a file.
-/

import FileListCache.Disk
import FileListCache.FileError

namespace FileListCache.Files

/-- Removes what a path names, a directory with all below it. A path that names nothing counts as
removed. -/
def remove (h : Host) (path : String) : Attempt FileError Unit := do
  let isDirectory := Disk.isDirectory h (← get).tree path
  let result ← (if isDirectory then Disk.removeDirectory h path else Disk.removeFile h path).run
  match result with
  | .ok () => return ()
  | .error e =>
    if e.isMissing then return ()
    else if isDirectory then throw (.directory path "remove" e)
    else throw (.file path "remove" e)

/-- Checks that files may be made in a directory. -/
def ensureWritable (h : Host) (t : Tree) (path : String) : Except FileError Unit :=
  match Disk.look h t path with
  | .ok .directory | .error _ => (Disk.access h t path).mapError (.notWritable path)
  | .ok _ => .error (.notADirectory path)

/-- The first `count` bytes of a file, or all of a shorter one. -/
def signature (h : Host) (path : String) (count : Nat) : Attempt FileError Bytes := do
  let source ← (Disk.openRead h path).adapt (FileError.file path "open")
  if count = 0 then return []
  let content ← ((Disk.contentOf (← get).tree source).mapError (.file path "read") :
    Except FileError Bytes)
  return content.take count

end FileListCache.Files
