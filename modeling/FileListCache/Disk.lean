/-
  FileListCache.Disk

  What the program asks of the file system: looking, reading, writing through a buffer, renaming
  and removing. Each request names a path; each change is a step of the tree.
-/

import FileListCache.IoError
import FileListCache.World

namespace FileListCache.Disk

/-! ## Looking -/

/-- A path that can be handed to the system: no character of it is zero. -/
def checkName (p : String) : Except IoError Unit :=
  if p.toList.contains (Char.ofNat 0) then .error .zeroInName else .ok ()

/-- The place that a path names. -/
def locate (h : Host) (t : Tree) (follow : Bool) (p : String) : Except IoError Location := do
  checkName p
  (t.locate h.place follow p).mapError .system

/-- The entry that a path names, links followed. -/
def look (h : Host) (t : Tree) (p : String) : Except IoError Node := do
  checkName p
  (t.look h.place p).mapError .system

/-- Whether a path names a directory. -/
def isDirectory (h : Host) (t : Tree) (p : String) : Bool :=
  match look h t p with
  | .ok .directory => true
  | _ => false

/-- Whether files may be made in what a path names, as the system is asked. -/
def access (h : Host) (t : Tree) (p : String) : Except OsError Unit :=
  match locate h t true p with
  | .ok l =>
    if t.find? l = none then .error .missing
    else
      match h.locked l with
      | some k => .error k.error
      | none => .ok ()
  | .error (.system e) => .error e
  | .error _ => .error .invalid

/-- Whether the system lets the entry at a place be made, removed or moved: the directory that it
is in must not be locked. -/
def askEntry (h : Host) (l : Location) : Except IoError Unit :=
  match h.locked l.dropLast with
  | some k => .error (.system k.error)
  | none => .ok ()

/-- Whether anything can be written where the entry at a place would be. The system asks this before
it looks for the entry. -/
def askVolume (h : Host) (l : Location) : Except IoError Unit :=
  if h.locked l.dropLast = some .readOnly then .error (.system .readOnly) else .ok ()

/-- Whether the system lets a file at a place be written anew: it is asked for the entry where there
is none yet. -/
def askFile (h : Host) (t : Tree) (l : Location) : Except IoError Unit :=
  match t.find? l with
  | none => askEntry h l
  | some (.file _) | some (.contested ..) => askVolume h l
  | some _ => .ok ()

/-- Whether the system lets an entry go from one place to another, whatever stands there. -/
def askMove (h : Host) (source target : Location) : Except IoError Unit :=
  if source = target then .ok () else askEntry h source *> askEntry h target

/-! ## Reading -/

/-- A file that is open for reading. -/
inductive Source
  /-- What stands at a place at the time of reading. -/
  | place (l : Location)
  /-- The content of a file that lost its place while it was opened. -/
  | detached (content : Bytes)
  deriving DecidableEq, Repr

/-- Opens a file for reading. Opening a contested file lets the other process go ahead. -/
def openRead (h : Host) (p : String) : Attempt IoError Source := do
  let t := (← get).tree
  let place ← locate h t true p
  match t.find? place with
  | none => throw (.system .missing)
  | some (.contested content opens fate) =>
    -- The other process comes one opening closer, or replaces the file now.
    if 1 < opens then World.take (.put place (.contested content (opens - 1) fate))
    else
      match fate with
      | .gone => World.take (.remove place)
      | .directory => World.take (.put place .directory)
    return .detached content
  | some _ => return .place place

/-- All that can be read from an open file. -/
def contentOf (t : Tree) : Source → Except IoError Bytes
  | .detached content => .ok content
  | .place l =>
    match t.find? l with
    | some (.file content) | some (.contested content ..) => .ok content
    | some .directory => .error (.system .isDirectory)
    | _ => .ok []

/-- The size that the system states for a directory. -/
def directorySize : Nat := 4096

/-- The size that the system states for an open file. -/
def sizeOf (t : Tree) (s : Source) : Nat :=
  match contentOf t s with
  | .ok content => content.length
  | .error _ => directorySize

/-- Opens a file and reads all of it. -/
def readAll (h : Host) (p : String) : Attempt IoError Bytes := do
  let s ← openRead h p
  contentOf (← get).tree s

/-! ## Writing -/

/-- Where written bytes go. -/
structure Sink where
  /-- The file that grows; a device has none. -/
  place : Option Location
  /-- How many more bytes are taken, and the error that the next one meets. -/
  room : Option (Nat × IoError) := none
  deriving DecidableEq, Repr

/-- Makes an empty file, or empties the one that is there, for which its directory is not asked. A
link is followed. The file takes as many bytes as the disk has room for. -/
def create (h : Host) (p : String) : Attempt IoError Sink := do
  let t := (← get).tree
  let place ← locate h t true p
  if Path.endsInSlash p then throw (.system .isDirectory)
  askFile h t place
  match t.find? place with
  | some .directory => throw (.system .isDirectory)
  -- A device is opened and not replaced: nothing is put in its place.
  | some .fullDevice => return { place := none, room := some (0, .system .full) }
  | _ =>
    World.take (.put place (.file []))
    return { place := some place, room := h.room place }

/-- Adds bytes to the file of a sink. -/
def Sink.grow (s : Sink) (bytes : Bytes) : Run Unit :=
  match s.place with
  | some l => if bytes.isEmpty then return () else World.take (.extend l bytes)
  | none => return ()

/-- Writes bytes at the end of what was written before. Of bytes for which there is no room those
that fit are written. -/
def write (s : Sink) (bytes : Bytes) : Attempt IoError Sink :=
  match s.room with
  | none => do
    s.grow bytes
    return s
  | some (room, e) =>
    if bytes.length ≤ room then do
      s.grow bytes
      return { s with room := some (room - bytes.length, e) }
    else do
      s.grow (bytes.take room)
      throw e

/-- A sink behind a buffer. -/
structure Writer where
  sink : Sink
  waiting : Bytes := []
  deriving DecidableEq, Repr

/-- Waits until what was written is on the disk. A device cannot be waited for. -/
def sync (s : Sink) : Attempt IoError Unit :=
  match s.place with
  | some _ => return ()
  | none => throw (.system .invalid)

namespace Writer

/-- How many bytes the buffer holds. -/
def capacity : Nat := 8192

/-- Writes what waits in the buffer. -/
def flush (w : Writer) : Attempt IoError Writer := do
  return ⟨← write w.sink w.waiting, []⟩

/-- Takes more bytes. Bytes that do not fit are preceded by those that wait, and bytes that would
fill the buffer on their own do not go through it. -/
def push (w : Writer) (bytes : Bytes) : Attempt IoError Writer := do
  let w ← if capacity < w.waiting.length + bytes.length then w.flush else pure w
  if capacity ≤ bytes.length then return { w with sink := ← write w.sink bytes }
  else return { w with waiting := w.waiting ++ bytes }

/-- Writes what waits in the buffer and sees it onto the disk. -/
def close (w : Writer) : Attempt IoError Unit := do
  sync (← w.flush).sink

end Writer

/-! ## Renaming and removing -/

/-- Gives an entry another place, unless the system refuses. -/
def move (h : Host) (source target : Location) : Attempt IoError Unit :=
  match h.refusal source target with
  | some e => throw e
  | none => World.take (.move source target)

/-- Takes an entry out of its directory, unless that is locked. -/
def unlink (h : Host) (l : Location) : Attempt IoError Unit := do
  askEntry h l
  World.take (.remove l)

/-- Renames a file, over what the new path names unless that is a directory. -/
def rename (h : Host) (source target : String) : Attempt IoError Unit := do
  let t := (← get).tree
  let s ← locate h t false source
  let d ← locate h t false target
  askVolume h s
  match t.find? s with
  | none => throw (.system .missing)
  | some node =>
    askMove h s d
    match node with
    | .directory =>
      match t.find? d with
      | none => move h s d
      | some .directory =>
        if s = d then return ()
        else if (t.children d).isEmpty then move h s d
        else throw (.system .notEmpty)
      | some _ => throw (.system .notDirectory)
    | _ =>
      -- The order of these questions decides which error is reported.
      if t.isDirectory d then throw (.system .isDirectory)
      else if Path.endsInSlash target then throw (.system .notDirectory)
      else if s = d then return ()
      else move h s d

/-- The places strictly below a place. Backwards by name, so each comes after all that is below it
and before what stands beside it. -/
def below (t : Tree) (l : Location) : List Location :=
  ((t.entries.map (·.1)).filter fun c => l.isPrefixOf c && c ≠ l).mergeSort fun c d => ¬ c < d

/-- Removes an entry that is not a directory. -/
def removeFile (h : Host) (p : String) : Attempt IoError Unit := do
  let t := (← get).tree
  let place ← locate h t false p
  askVolume h place
  match t.find? place with
  | none => throw (.system .missing)
  | some node =>
    if Path.endsInSlash p then
      throw (.system (if node = .directory then .isDirectory else .notDirectory))
    -- That it is a directory is found only after the lock of the one that it is in.
    askEntry h place
    if node = .directory then throw (.system .isDirectory)
    World.take (.remove place)

/-- A path without the slashes at its end. -/
def withoutSlashes (p : String) : String :=
  String.ofList ((p.toList.reverse.dropWhile (· = '/')).reverse)

/-- Removes a directory with all below it, up to the first entry that the system does not let go. A
link is removed itself; links below are not followed. The directory cannot go under the names of
itself and its parent, and not through a link. -/
def removeDirectory (h : Host) (p : String) : Attempt IoError Unit := do
  let t := (← get).tree
  let place ← locate h t false p
  match t.find? place with
  | none => throw (.system .missing)
  | some .directory =>
    -- What is below goes first, whatever becomes of the directory itself.
    (below t place).forM (unlink h)
    let last := ((Path.pieces p).filter (· ≠ "")).getLast?
    if last = some "." then throw (.system .invalid)
    if last = some ".." then throw (.system .notEmpty)
    if (t.locate h.place false (withoutSlashes p)).toOption ≠ some place then
      throw (.system .notDirectory)
    unlink h place
  | some _ => unlink h place

end FileListCache.Disk
