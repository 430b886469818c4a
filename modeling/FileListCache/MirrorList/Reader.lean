/-
  FileListCache.MirrorList.Reader

  Reading a mirror list line by line. A header makes its repository the active one, a directive
  adds to the active repository, and an included file adds the servers it lists.
-/

import FileListCache.ConfigError
import FileListCache.Disk
import FileListCache.MirrorList.Line
import FileListCache.Repository

namespace FileListCache.MirrorList

/-! ## Lines of a file -/

/-- The pieces between the elements equal to `separator`; one more than there are of those. -/
def splitAll {α : Type} [DecidableEq α] (separator : α) : List α → List (List α)
  | [] => [[]]
  | x :: xs =>
    if x = separator then [] :: splitAll separator xs
    else
      match splitAll separator xs with
      | [] => [[x]]
      | piece :: pieces => (x :: piece) :: pieces

/-- The lines of a text. -/
def linesOfText (text : String) : List (List Char) := splitAll '\n' text.toList

/-- The lines of a file, each decoded on its own. -/
def linesOfBytes (bytes : Bytes) : List (List Char) := (splitAll 10 bytes).map Utf8.lossyChars

/-! ## State -/

/-- What directives belong to. -/
inductive Active
  | nothing
  /-- The section of general options. -/
  | options
  | repository (name : String)
  deriving DecidableEq, Repr

/-- What was read so far. -/
structure Draft where
  active : Active := .nothing
  repositories : List Repository := []
  deriving DecidableEq, Repr

/-- The section that holds general options. -/
def optionsName : String := "options"

/-- Adds a server to the repositories with the given name. -/
def addServer (name server : String) (repositories : List Repository) : List Repository :=
  repositories.map fun r => if r.name = name then { r with servers := r.servers ++ [server] } else r

/-- Opens a section. A repository whose section was opened before goes on. -/
def Draft.openSection (d : Draft) (name : String) : Run Draft :=
  if name = optionsName then return { d with active := .options }
  else if name = "" then do
    World.note .warn .mirrorList "ignoring section with an empty name"
    return { d with active := .nothing }
  else if d.repositories.any (·.name = name) then do
    World.note .debug .mirrorList
      ("section [" ++ name ++ "] repeated, appending to the existing repository")
    return { d with active := .repository name }
  else
    return { active := .repository name, repositories := d.repositories ++ [⟨name, []⟩] }

/-- Adds a server to a repository; an empty one is ignored. -/
def Draft.pushServer (d : Draft) (name server : String) : Run Draft :=
  if server = "" then do
    World.note .warn .mirrorList ("ignoring empty Server in [" ++ name ++ "]")
    return d
  else return { d with repositories := addServer name server d.repositories }

/-! ## Included files -/

/-- Reports that an included file adds nothing. -/
def warnInclude (path reason : String) : Run Unit :=
  World.note .warn .mirrorList (ConfigError.includeAccess path reason).message

/-- The servers that a line of an included file adds. -/
def serverOf? (raw : List Char) : Option String :=
  match Line.ofText? raw with
  | some (.directive "Server" value) => some value
  | _ => none

/-- The servers that an included file lists, in order. One that cannot be read is reported and
lists none. -/
def includedServers (h : Host) (value : String) : Run (List String) := do
  match PathNotation.resolve h value with
  | .error e =>
    warnInclude value e.message
    return []
  | .ok path =>
    match ← (Disk.openRead h path).run with
    | .error e =>
      warnInclude path e.message
      return []
    | .ok source =>
      let servers ←
        match Disk.contentOf (← get).tree source with
        | .ok content => pure ((linesOfBytes content).filterMap serverOf?)
        | .error e => do
          warnInclude path e.message
          pure []
      World.note .debug .mirrorList (toString servers.length ++ " servers from " ++ path)
      return servers

/-! ## Reading -/

/-- Takes a directive. -/
def Draft.directive (h : Host) (d : Draft) (key value : String) : Run Draft :=
  match d.active with
  | .options => do
    World.note .trace .mirrorList ("[options] " ++ key ++ " = " ++ value)
    return d
  | .nothing => do
    World.note .debug .mirrorList
      ("discarding `" ++ key ++ "` outside of any repository section")
    return d
  | .repository name =>
    match key with
    | "Server" => d.pushServer name value
    -- Servers of an included file are taken as if they stood here.
    | "Include" => do
      let servers ← includedServers h value
      servers.foldlM (fun d s => d.pushServer name s) d
    | _ => do
      World.note .trace .mirrorList ("ignoring `" ++ key ++ "` in [" ++ name ++ "]")
      return d

/-- Takes a line. -/
def Draft.feed (h : Host) (d : Draft) (raw : List Char) : Run Draft :=
  match Line.ofText? raw with
  | none => return d
  | some (.header name) => d.openSection name
  | some (.directive key value) => d.directive h key value
  | some (.other text) => do
    World.note .trace .mirrorList ("ignoring line without directive: " ++ text)
    return d

/-- Takes lines in order and gives the repositories they make. -/
def readLines (h : Host) (lines : List (List Char)) : Run (List Repository) := do
  return (← lines.foldlM (Draft.feed h) {}).repositories

/-- The repositories of a mirror list held in memory. -/
def ofText (h : Host) (text : String) : Run (List Repository) := readLines h (linesOfText text)

/-- The repositories of a mirror list given as bytes. -/
def ofBytes (h : Host) (bytes : Bytes) : Run (List Repository) := readLines h (linesOfBytes bytes)

/-- The repositories of a mirror list in a file. -/
def ofFile (h : Host) (path : String) : Attempt ConfigError (List Repository) := do
  let source ← (Disk.openRead h path).adapt (ConfigError.access path)
  World.note .debug .mirrorList ("parsing mirror configuration " ++ path)
  let content ← ((Disk.contentOf (← get).tree source).mapError (.read path) :
    Except ConfigError Bytes)
  let repositories ← (ofBytes h content : Run _)
  World.note .debug .mirrorList ("found " ++ toString repositories.length ++ " repositories")
  return repositories

end FileListCache.MirrorList
