/-
  FileListCache.World

  What a run finds and what it changes. The host is fixed while the program runs: environment,
  working directory, what servers answer to which requests, what the disk has room for and which
  directories are locked. The world changes: the file system, by recorded steps, and the growing
  lists of messages, events and requests.

  Of permissions only those that protect the entries of a directory are told apart: whatever is
  found can be read, and a file that is there can be written to unless its file system is not. Room
  is had by each place on its own, so one file does not take it from another.
-/

import FileListCache.Event
import FileListCache.IoError
import FileListCache.Log
import FileListCache.Tree
import FileListCache.Http.Message

namespace FileListCache

/-- The machine and the account that the program runs on. -/
structure Host where
  /-- Environment variables. -/
  environment : List (String × String) := []
  /-- The working directory, unless it was deleted. -/
  directory : Option String := some "/"
  /-- The home directory of the account. -/
  accountHome : String := "/root"
  /-- The name of the machine's architecture. -/
  machine : String := "x86_64"
  /-- Whether a person watches the output as it grows. -/
  isWatched : Bool := false
  /-- What the servers answer. -/
  answer : Http.Servers := .steady fun _ => none
  /-- In which pieces bytes arrive, those of documents and those of members of archives. -/
  arrival : Bytes.Arrival := .steady
  /-- How many bytes a new file at a place takes and the error that the next one meets, where the
  disk is short of room. -/
  room : Location → Option (Nat × IoError) := fun _ => none
  /-- Why nothing can be made in a directory or removed from it, where that is so. -/
  locked : Location → Option Lock := fun _ => none
  /-- Why an entry cannot be given another place, where the system refuses that for another reason
  than a lock. -/
  refusal : Location → Location → Option IoError := fun _ _ => none

namespace Host

/-- The value of an environment variable. -/
def variableValue? (h : Host) (name : String) : Option String := h.environment.lookup name

/-- The place that relative paths start from. -/
def place (h : Host) : Location := (h.directory.map Tree.locationOf).getD []

end Host

/-- What a run changes. -/
structure World where
  tree : Tree := {}
  /-- The steps that changed the tree, in order. -/
  steps : List Tree.Step := []
  log : List LogRecord := []
  events : List Event := []
  requests : List Http.Request := []

/-- Computations that change the world. -/
abbrev Run := StateM World

/-- Computations that change the world and may fail; what was changed before the failure stays
changed. -/
abbrev Attempt (ε : Type) := ExceptT ε Run

namespace World

/-- Leaves a message. -/
def note (level : Level) (topic : Topic) (message : String) : Run Unit :=
  modify fun w => { w with log := w.log ++ [⟨level, topic, message⟩] }

/-- Tells those who watch. -/
def emit (e : Event) : Run Unit := modify fun w => { w with events := w.events ++ [e] }

/-- Takes one step of the file system. -/
def take (s : Tree.Step) : Run Unit :=
  modify fun w => { w with tree := w.tree.apply s, steps := w.steps ++ [s] }

/-- Asks a server. -/
def ask (h : Host) (r : Http.Request) : Run (Option Http.Reply) := do
  let before := (← get).requests
  modify fun w => { w with requests := w.requests ++ [r] }
  return h.answer.reply before r

end World

end FileListCache
