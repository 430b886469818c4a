/-
  FileListCache.Main

  The program on a real machine. What the run may look at is read before it, the run itself is a
  computation on that picture, and its steps are then made on the disk one by one. Documents are
  fetched from files only; no server can be reached from here.
-/

import FileListCache.Program

namespace FileListCache.Main

open CommandLine (Arguments)

/-! ## Reading the machine -/

/-- What the system calls the machine's architecture. -/
def machineName : IO String := do
  try return Text.trimmed (← IO.FS.readFile "/proc/sys/kernel/arch")
  catch _ => return ({} : Host).machine

/-- The words of a text. -/
def wordsOf (text : String) : List String :=
  ((text.toList.splitBy fun a b => Text.isWord a = Text.isWord b).map String.ofList)

/-- The variables whose names occur in some texts. -/
def environment (texts : List String) : IO (List (String × String)) := do
  let usual := ["HOME", "XDG_CONFIG_HOME", "FILESDB_CONFIG", "FILESDB_CACHE", "FILESDB_LOG"]
  let names := (usual ++ texts.flatMap wordsOf).eraseDups
  names.filterMapM fun name => do return (← IO.getEnv name).map (name, ·)

/-- The tree with a directory at a place and at all those above it. -/
def withDirectory (t : Tree) (place : Location) : Tree :=
  (List.range place.length).foldl (fun t i => t.apply (.put (place.take (i + 1)) .directory)) t

/-- The bytes of a file, or nothing if there is none. -/
def contentOf (path : String) : IO (Option Bytes) := do
  try return some (← IO.FS.readBinFile path).toList
  catch _ => return none

/-- The tree with what a path names. Links on the way become one link to where they lead. -/
def withPath (h : Host) (t : Tree) (path : String) : IO Tree := do
  let path := Path.join ((h.directory).getD "/") path
  let place := Tree.locationOf path
  let t := withDirectory t place.dropLast
  try
    let real ← IO.FS.realPath path
    let target := Tree.locationOf real.toString
    let t := withDirectory t target.dropLast
    let t := if target = place then t else t.apply (.put place (.link real.toString))
    if ← real.isDir then
      let mut t := t.apply (.put target .directory)
      for entry in ← real.readDir do
        let node := if ← entry.path.isDir then Node.directory else .file []
        let child := target ++ [entry.fileName]
        if (t.find? child).isNone then t := t.apply (.put child node)
      return t
    else
      return match ← contentOf real.toString with
        | some content => t.apply (.put target (.file content))
        | none => t
  catch _ => return t

/-- The tree with what some paths name. -/
def withPaths (h : Host) (t : Tree) (paths : List String) : IO Tree :=
  paths.foldlM (withPath h) t

/-- What a computation gives on a tree, if it succeeds. -/
def attempt {ε α : Type} (t : Tree) (x : Attempt ε α) : Option α :=
  ((x.run.run { tree := t }).1).toOption

/-- The files that the lines of a mirror list include. -/
def included (h : Host) (content : Bytes) : List String :=
  (MirrorList.linesOfBytes content).filterMap fun line =>
    match MirrorList.Line.ofText? line with
    | some (.directive "Include" value) => (PathNotation.resolve h value).toOption
    | _ => none

/-- The files that servers of a plan offer. -/
def offered (p : Program.Plan) : List String :=
  p.repositories.flatMap fun r => r.servers.filterMap fun server =>
    match Url.ofText (p.goal.url r server) with
    | .ok url => url.filePath?
    | .error _ => none

/-- The machine and the part of its file system that a command line refers to. -/
def observe (words : List String) (a : Arguments) : IO (Host × Tree) := do
  let directory ← IO.currentDir
  let host (texts : List String) : IO Host := do
    return { environment := ← environment (words ++ texts), directory := directory.toString,
             machine := ← machineName }
  let h ← host []
  let path := ((a.config.bind fun p => (PathNotation.resolve h p).toOption)).getD
    (Settings.defaultPath h)
  let h ← host [Utf8.lossy ((← contentOf path).getD [])]
  let t ← withPath h {} path
  match attempt t (Program.settings h a) with
  | none => return (h, t)
  | some s =>
    let list := (s.mirrorConfigPath h).toOption.getD ""
    let content := (← contentOf list).getD []
    let h ← host [Utf8.lossy content, s.mirrorConfig, s.cachePath]
    let t ← withPaths h t (list :: included h content ++ (s.cacheDirectory h).toOption.toList)
    let names := match a.command with
      | .sync names => names
      | _ => []
    match attempt t (Program.plan h a s names) with
    | none => return (h, t)
    | some p => return (h, ← withPaths h t (offered p))

/-! ## Acting on it -/

/-- The path of a place. -/
def pathOf (l : Location) : String := "/" ++ "/".intercalate l

/-- Makes a step on the disk. -/
def perform : Tree.Step → IO Unit
  | .put place (.file content) => IO.FS.writeBinFile (pathOf place) (Bytes.pack content)
  | .put place .directory => IO.FS.createDirAll (pathOf place)
  | .put .. => return ()
  | .extend place bytes => do
    let handle ← IO.FS.Handle.mk (pathOf place) .append
    handle.write (Bytes.pack bytes)
  | .remove place => do
    let path := pathOf place
    try IO.FS.removeFile path catch _ => IO.FS.removeDir path
  | .move source target => IO.FS.rename (pathOf source) (pathOf target)

/-- Shows how a run ended. -/
def present (o : Program.Outcome) : IO Unit := do
  for line in o.lines do
    match line.stream with
    | .output => IO.println line.text
    | .remarks => IO.eprintln line.text
  IO.print o.text
  if let some e := o.error then IO.eprint e.report

/-- Runs the program on the machine. -/
def runOn (words : List String) : IO UInt32 := do
  let (h, tree) ← match Arguments.ofWords words with
    | .ok a => observe words a
    | .error _ => pure ({}, {})
  let (o, w) := (Program.run h words).run { tree }
  w.steps.forM perform
  present o
  return UInt32.ofNat o.status

end FileListCache.Main

/-- The program. -/
def main (words : List String) : IO UInt32 := FileListCache.Main.runOn words
