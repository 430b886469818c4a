/-
  FileListCache.Tree

  A file system as a value: which entry stands at which place, how a path finds its place, and
  the single steps by which the entries change. Nothing else changes a tree, so the states a
  reader can ever see are the trees between two steps.

  Each place has an entry of its own: no two places share a file. Entries have no owners, modes or
  times; which directories are locked is up to the host.
-/

import FileListCache.Bytes
import FileListCache.OsError
import FileListCache.Path
import FileListCache.Text.Utf8

namespace FileListCache

/-- A place in the file system: the names from the root down to it. -/
abbrev Location := List String

/-- What another process makes of an entry it replaces. -/
inductive Fate
  | gone
  | directory
  deriving DecidableEq, Repr

/-- What stands at a place. -/
inductive Node
  | file (content : Bytes)
  | directory
  | link (target : String)
  /-- A device that refuses every byte. -/
  | fullDevice
  /-- A file that another process replaces as it is opened for the given time from now on. The
  opener still reads the content. -/
  | contested (content : Bytes) (opens : Nat) (fate : Fate)
  deriving DecidableEq, Repr

/-- A file system; the root itself is always a directory. -/
structure Tree where
  entries : List (Location × Node) := []
  deriving DecidableEq, Repr

namespace Tree

/-- What stands at a place. -/
def find? (t : Tree) (l : Location) : Option Node :=
  if l = [] then some .directory else (t.entries.find? (·.1 = l)).map (·.2)

/-- Whether a directory stands at a place. -/
def isDirectory (t : Tree) (l : Location) : Bool := t.find? l = some .directory

/-- The places directly below a place, in the order they were made. -/
def children (t : Tree) (l : Location) : List Location :=
  (t.entries.map (·.1)).filter fun c => c ≠ [] && c.dropLast = l

/-! ## Steps -/

/-- A single change of the file system. -/
inductive Step
  /-- Creates an entry or replaces the one that is there. -/
  | put (place : Location) (node : Node)
  /-- Adds bytes at the end of a file. -/
  | extend (place : Location) (bytes : Bytes)
  /-- Removes one entry. -/
  | remove (place : Location)
  /-- Gives an entry another place, with all below it, instead of what is there. -/
  | move (source target : Location)
  deriving DecidableEq, Repr

/-- The entries with `node` at `place`. -/
def putEntry (place : Location) (node : Node) :
    List (Location × Node) → List (Location × Node)
  | [] => [(place, node)]
  | e :: rest => if e.1 = place then (place, node) :: rest else e :: putEntry place node rest

/-- A file with bytes added at its end; other entries do not change. -/
def Node.extended (bytes : Bytes) : Node → Node
  | .file content => .file (content ++ bytes)
  | other => other

/-- The place that `l` has after `source` moved to `target`. -/
def moved (source target l : Location) : Location :=
  if source.isPrefixOf l then target ++ l.drop source.length else l

/-- The tree after a step. -/
def apply (t : Tree) : Step → Tree
  | .put place node => ⟨putEntry place node t.entries⟩
  | .extend place bytes =>
    ⟨t.entries.map fun e => if e.1 = place then (e.1, Node.extended bytes e.2) else e⟩
  | .remove place => ⟨t.entries.filter fun e => e.1 ≠ place⟩
  | .move source target =>
    if source = target then t
    else
      ⟨(t.entries.filter fun e => e.1 ≠ target).map fun e => (moved source target e.1, e.2)⟩

/-- The tree after some steps. -/
def applyAll (t : Tree) (steps : List Step) : Tree := steps.foldl apply t

/-! ## Finding places -/

/-- How many links a look-up follows. -/
def mostLinks : Nat := 40

/-- How many bytes a name may take. -/
def longestName : Nat := 255

/-- How many bytes a path may take. -/
def longestPath : Nat := 4095

/-- The place that `names` lead to from `here`. The last name may be missing from its directory.
A link in the middle is followed, one at the end only if `follow` says so. -/
def walk (t : Tree) (follow : Bool) (links : Nat) (here : Location) (names : List String) :
    Except OsError Location :=
  match names with
  | [] => .ok here
  | name :: rest =>
    match t.find? here with
    | none => .error .missing
    | some .directory =>
      if name = "" ∨ name = "." then walk t follow links here rest
      else if name = ".." then walk t follow links here.dropLast rest
      else if longestName < Utf8.size name then .error .nameTooLong
      else
        let place := here ++ [name]
        match t.find? place with
        | some (.link target) =>
          -- A link that is followed puts the names of its target before those that are left.
          if rest.isEmpty && !follow then .ok place
          else
            match links with
            | 0 => .error .tooManyLinks
            | links + 1 =>
              walk t follow links (if Path.isAbsolute target then [] else here)
                (Path.pieces target ++ rest)
        | _ => walk t follow links place rest
    | some _ => .error .notDirectory
termination_by (links, names.length)

/-- The names that a path from the root consists of. -/
def locationOf (p : String) : Location := (Path.pieces p).filter (· ≠ "")

/-- The place that a path names, seen from the directory `cwd`. -/
def locate (t : Tree) (cwd : Location) (follow : Bool) (p : String) : Except OsError Location :=
  if p = "" then .error .missing
  else if longestPath < Utf8.size p then .error .nameTooLong
  else walk t follow mostLinks (if Path.isAbsolute p then [] else cwd) (Path.pieces p)

/-- The entry that a path names, links followed. -/
def look (t : Tree) (cwd : Location) (p : String) : Except OsError Node := do
  match t.find? (← t.locate cwd true p) with
  | some node => return node
  | none => throw .missing

end Tree

end FileListCache
