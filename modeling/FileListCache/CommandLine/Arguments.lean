/-
  FileListCache.CommandLine.Arguments

  Reading a command line: options, the name of a command, and what belongs to it. An option that
  waits for its value is looked at only when the next thing is read, so of two errors the one
  further left need not be the one that is reported.
-/

import FileListCache.CommandLine.UsageError
import FileListCache.Log
import FileListCache.Text.Count

namespace FileListCache.CommandLine

/-! ## What a command line says -/

/-- What the program is asked to do. -/
inductive Command
  /-- Sync the repositories with the given names, or all. -/
  | sync (names : List String)
  /-- List the repositories, with the addresses of their file lists if these are wanted. -/
  | repositories (expand : Bool)
  /-- Print the settings. -/
  | config
  deriving DecidableEq, Repr

/-- A command line that was understood. -/
structure Arguments where
  command : Command
  /-- How often more messages were asked for. -/
  verbosity : Nat := 0
  quiet : Bool := false
  json : Bool := false
  noColor : Bool := false
  noProgress : Bool := false
  config : Option String := none
  mirrorConfig : Option String := none
  cachePath : Option String := none
  architecture : Option String := none
  proxy : Option String := none
  headers : Option (List String) := none
  userAgent : Option String := none
  timeout : Option Nat := none
  deriving DecidableEq, Repr

/-- Which messages are shown. -/
def Arguments.level (a : Arguments) : Level :=
  if a.quiet then .error
  else if 2 ≤ a.verbosity then .trace
  else if a.verbosity = 1 then .debug
  else .info

/-! ## Options of one place -/

/-- The options that stand in one place, in order. -/
structure Given where
  switches : List Switch := []
  values : List (Setting × String) := []
  deriving DecidableEq, Repr

namespace Given

/-- Whether there is no option. -/
def isEmpty (g : Given) : Bool := g.switches.isEmpty && g.values.isEmpty

/-- The values of an option. -/
def valuesOf (g : Given) (s : Setting) : List String :=
  (g.values.filter (·.1 = s)).map (·.2)

/-- Adds an option without a value. Only more messages can be asked for repeatedly. -/
def addSwitch (g : Given) (s : Switch) : Except UsageError Given :=
  match s with
  | .help => .error .helpWanted
  | .version => .error .versionWanted
  | .verbose => .ok { g with switches := g.switches ++ [s] }
  | _ =>
    if g.switches.contains s then .error (.repeated (.switch s))
    else .ok { g with switches := g.switches ++ [s] }

/-- Adds an option with its value. Only headers can be given repeatedly, and a timeout has to be a
count. -/
def addValue (g : Given) (s : Setting) (value : String) : Except UsageError Given :=
  if s ≠ .header ∧ g.values.any (·.1 = s) then .error (.repeated (.setting s))
  else if s = .timeout ∧ Text.count? value = none then .error (.malformedValue s value)
  else .ok { g with values := g.values ++ [(s, value)] }

end Given

/-! ## Reading -/

/-- An option whose value was not looked at yet, or is still to come. -/
structure Pending where
  setting : Setting
  value : Option String := none
  deriving DecidableEq, Repr

/-- What was read in one place so far. -/
structure Draft where
  given : Given := {}
  pending : Option Pending := none
  /-- Words that are no options. -/
  words : List String := []
  deriving DecidableEq, Repr

namespace Draft

/-- Whether the next word is the value of an option. -/
def awaits (d : Draft) : Bool :=
  match d.pending with
  | some { value := none, .. } => true
  | _ => false

/-- Gives a value to the option that waits for one. -/
def takeValue (d : Draft) (value : String) : Draft :=
  { d with pending := d.pending.map fun p => { p with value := some value } }

/-- Looks at the option that waits. -/
def settle (d : Draft) : Except UsageError Draft :=
  match d.pending with
  | none => .ok d
  | some { setting, value := none } => .error (.missingValue setting)
  | some { setting, value := some value } => do
    return { d with given := ← d.given.addValue setting value, pending := none }

/-- Takes an option without a value. -/
def switch (d : Draft) (s : Switch) : Except UsageError Draft := do
  let d ← d.settle
  return { d with given := ← d.given.addSwitch s }

/-- Takes an option with its value. -/
def assign (d : Draft) (s : Setting) (value : String) : Except UsageError Draft := do
  let d ← d.settle
  return { d with given := ← d.given.addValue s value }

/-- Takes an option whose value is to come. -/
def expect (d : Draft) (s : Setting) : Except UsageError Draft := do
  let d ← d.settle
  return { d with pending := some { setting := s } }

/-- Takes an option by its name; a value may follow behind an equals sign. -/
def named (p : Place) (d : Draft) (cs : List Char) : Except UsageError Draft :=
  let (name, value) := match Text.splitFirst (· = '=') cs with
    | some (name, value) => (name, some (String.ofList value))
    | none => (cs, none)
  match Opt.ofName? p (String.ofList name), value with
  | none, _ => .error (.unknownArgument ("--" ++ String.ofList cs))
  | some (.switch s), none => d.switch s
  | some (.switch s), some _ => .error (.needlessValue (.switch s))
  | some (.setting s), none => d.expect s
  | some (.setting s), some value => d.assign s value

/-- Takes options by their letters. Behind the letter of one that takes a value stands the value,
possibly behind an equals sign. -/
def lettered (p : Place) (d : Draft) : List Char → Except UsageError Draft
  | [] => .ok d
  | c :: rest =>
    match Opt.ofLetter? p c with
    | none => .error (.unknownArgument (String.ofList ['-', c]))
    | some (.switch s) => do lettered p (← d.switch s) rest
    | some (.setting s) =>
      match rest with
      | [] => d.expect s
      | '=' :: value => d.assign s (String.ofList value)
      | value => d.assign s (String.ofList value)

/-- Takes a word that is no option; only names of repositories may follow a command. -/
def word (p : Place) (d : Draft) (w : String) : Except UsageError Draft :=
  match p with
  | .sync => do
    let d ← d.settle
    return { d with words := d.words ++ [w] }
  | _ => .error (.unknownArgument w)

/-- Takes options if the word holds some. -/
def options? (p : Place) (d : Draft) (w : String) : Option (Except UsageError Draft) :=
  match w.toList with
  | '-' :: '-' :: cs => some (named p d cs)
  | '-' :: c :: cs => some (lettered p d (c :: cs))
  | _ => none

end Draft

/-- Reads what follows the name of a command. Behind two dashes nothing is an option. -/
def readFrom (p : Place) (d : Draft) : List String → Except UsageError Draft
  | [] => d.settle
  | w :: rest =>
    if w = "--" then do (← rest.foldlM (Draft.word p) d).settle
    else
      match d.options? p w with
      | some d => do readFrom p (← d) rest
      | none =>
        -- A word without dashes is a value if an option waits for one.
        if d.awaits then readFrom p (d.takeValue w) rest
        else do readFrom p (← d.word p w) rest

/-! ## The command -/

/-- What the name of a command stands for: its place, or help. -/
def commandNamed? : String → Option (Option Place)
  | "sync" | "S" => some (some .sync)
  | "repos" | "ls" => some (some .repositories)
  | "config" => some (some .config)
  | "help" => some none
  | _ => none

/-- What is said about commands; help on one command takes no further word. -/
def readHelp : List String → UsageError
  | [] => .helpWanted
  | w :: rest =>
    if (commandNamed? w).isNone then .unknownCommand w
    else
      match rest with
      | [] => .helpWanted
      | next :: _ => .unknownCommand next

/-- The largest count of requests for more messages. -/
def mostVerbosity : Nat := 255

/-- The values of an option; those behind the command's name stand for all. -/
def layered (front behind : Given) (s : Setting) : List String :=
  if behind.valuesOf s = [] then front.valuesOf s else behind.valuesOf s

/-- Puts together what stands in front of a command and what stands behind its name. -/
def assemble (front : Given) (p : Place) (behind : Draft) : Arguments :=
  let has (s : Switch) : Bool := front.switches.contains s || behind.given.switches.contains s
  let value (s : Setting) : Option String := (layered front behind.given s).head?
  -- What stands behind the name replaces what stands in front, also the count.
  let loud := behind.given.switches.count .verbose
  let headers := layered front behind.given .header
  { command := match p with
      | .sync => .sync behind.words
      | .repositories => .repositories (has .expand)
      | _ => .config
    verbosity := min mostVerbosity (if loud = 0 then front.switches.count .verbose else loud)
    quiet := has .quiet
    json := has .json
    noColor := has .noColor
    noProgress := has .noProgress
    config := value .config
    mirrorConfig := value .mirrorConfig
    cachePath := value .cachePath
    architecture := value .architecture
    proxy := value .proxy
    headers := if headers.isEmpty then none else some headers
    userAgent := value .userAgent
    timeout := (value .timeout).bind Text.count? }

/-- Reads a command line from its start. What stands in front of a command is settled after what
stands behind its name. -/
def readFront (d : Draft) : List String → Except UsageError Arguments
  | [] => do
    let d ← d.settle
    throw (if d.given.isEmpty then .empty else .noCommand)
  | w :: rest =>
    match d.options? .front w with
    | some next =>
      if w = "--" then
        match rest with
        | [] => do
          let d ← d.settle
          throw (if d.given.isEmpty then .empty else .noCommand)
        | w :: _ =>
          .error (if (commandNamed? w).isSome then .unknownArgument w else .unknownCommand w)
      else do readFront (← next) rest
    | none =>
      if d.awaits then readFront (d.takeValue w) rest
      else
        match commandNamed? w with
        | none => .error (.unknownCommand w)
        | some none => .error (readHelp rest)
        | some (some p) => do
          -- An option in front of the command is settled only after all that stands behind it.
          let behind ← readFrom p {} rest
          let d ← d.settle
          return assemble d.given p behind

/-- What a command line says. -/
def Arguments.ofWords (words : List String) : Except UsageError Arguments := readFront {} words

end FileListCache.CommandLine
