/-
  FileListCache.Program

  The program as a whole: a command line is read, the settings are put together, the command does
  its work, and the run ends with a status, the lines that were shown, and an error if there was
  one.
-/

import FileListCache.CommandError
import FileListCache.CommandLine.Arguments
import FileListCache.Http.HeaderLine
import FileListCache.MirrorList.Reader
import FileListCache.Settings
import FileListCache.Sync
import FileListCache.Terminal.Board
import FileListCache.Terminal.Message

namespace FileListCache.Program

open CommandLine (Arguments Command UsageError)

/-! ## Settings -/

/-- Settings in which what the command line says comes first. -/
def overridden (a : Arguments) (s : Settings) : Settings :=
  { mirrorConfig := a.mirrorConfig.getD s.mirrorConfig
    cachePath := a.cachePath.getD s.cachePath
    architecture := a.architecture.getD s.architecture
    userAgent := a.userAgent <|> s.userAgent
    proxy := a.proxy <|> s.proxy
    timeout := a.timeout <|> s.timeout }

/-- The settings of a run. -/
def settings (h : Host) (a : Arguments) : Attempt ConfigError Settings := do
  let path ← (a.config.mapM fun path =>
    (PathNotation.resolve h path).mapError fun e => .host (.path e) :
    Except ConfigError (Option String))
  return overridden a (← Settings.load h path)

/-- How servers are asked: as the settings say, with the given header lines. -/
def client (s : Settings) (headerLines : Option (List String)) :
    Except CommandError Http.Client := do
  if let some proxy := s.proxy then
    unless Http.Address.isProxy proxy do throw (.invalidProxy proxy)
  let headers ← (Http.HeaderLine.parseAll (headerLines.getD [])).mapError .invalidHeader
  let usual : Http.Client := {}
  return {
    userAgent := s.userAgent.getD usual.userAgent
    headers
    proxy := s.proxy
    timeout := s.timeout }

/-! ## Listing repositories -/

/-- A repository with the addresses of its file list in place of its servers. -/
def expanded (architecture : String) (r : Repository) : Repository :=
  { r with servers := r.servers.map (Download.Goal.url ⟨"", architecture⟩ r) }

/-- A repository as a JSON value. -/
def repositoryJson (r : Repository) : Json :=
  .object [("name", .text r.name), ("servers", .ofTexts r.servers)]

/-- Shows a repository and its servers. -/
def showRepository (colors : Bool) (r : Repository) : Run Unit := do
  let name := Terminal.paint colors .cyan r.name
  if r.servers.isEmpty then
    World.note .info .commandRepos
      (name ++ " " ++ Terminal.paint colors .yellow "(no servers)")
  else
    World.note .info .commandRepos name
    r.servers.forM fun server => World.note .info .commandRepos ("  " ++ server)

/-- Lists the repositories of the mirror list; gives the text to print. -/
def listRepositories (h : Host) (a : Arguments) (s : Settings) (expand : Bool) :
    Attempt ConfigError String := do
  let path ← (s.mirrorConfigPath h : Except ConfigError String)
  let repositories ← MirrorList.ofFile h path
  let repositories :=
    if expand then repositories.map (expanded (s.architectureName h)) else repositories
  if a.json then return (Json.array (repositories.map repositoryJson)).pretty 0 ++ "\n"
  else
    repositories.forM fun r => (showRepository (!a.noColor) r : Attempt ConfigError Unit)
    return ""

/-! ## Syncing repositories -/

/-- What a sync run works with. -/
structure Plan where
  client : Http.Client
  /-- The path of the mirror list. -/
  mirrorConfig : String
  repositories : List Repository
  goal : Download.Goal
  deriving DecidableEq, Repr

/-- Checks all that a sync run needs except the cache itself. -/
def plan (h : Host) (a : Arguments) (s : Settings) (names : List String) :
    Attempt CommandError Plan := do
  -- The order of these checks decides which of several mistakes is reported.
  let client ← client s a.headers
  let mirrorConfig ← ((s.mirrorConfigPath h).mapError .config : Except CommandError String)
  let repositories ← (MirrorList.ofFile h mirrorConfig).adapt CommandError.config
  let repositories ← ((Repository.select repositories names).mapError
    fun name => .config (.unknownRepository name) : Except CommandError (List Repository))
  let cache ← ((s.cacheDirectory h).mapError .config : Except CommandError String)
  return { client, mirrorConfig, repositories, goal := ⟨cache, s.architectureName h⟩ }

/-- Whether bars are drawn. -/
def isInteractive (h : Host) (a : Arguments) : Bool := !a.json && !a.noProgress && h.isWatched

/-- Syncs repositories; fails unless every one was synced. -/
def sync (h : Host) (a : Arguments) (s : Settings) (names : List String) :
    Attempt CommandError Unit := do
  let p ← plan h a s names
  World.note .debug .commandSync
    ("syncing " ++ toString p.repositories.length ++ " repositories into " ++ p.goal.cache)
  let report ← (Sync.run h p.client (isInteractive h a) p.goal p.repositories).adapt
    CommandError.sync
  if report.isSuccess then
    World.note .info .commandSync (toString report.synced.length ++ " repositories synced")
  else throw (.incomplete (report.failed.map (·.1)))

/-! ## Runs -/

/-- Does what the command line asks for; gives the text to print. -/
def execute (h : Host) (a : Arguments) : Attempt CommandError String := do
  let s ← (settings h a).adapt CommandError.config
  World.note .debug .command ("mirror config: " ++ s.mirrorConfig)
  match a.command with
  | .config => return if a.json then s.toJson.pretty 0 ++ "\n" else s.toToml
  | .repositories expand => (listRepositories h a s expand).adapt CommandError.config
  | .sync names =>
    sync h a s names
    return ""

/-- The messages that are shown: those that the variable `FILESDB_LOG` lets through, or those up
to the level that the command line asks for. -/
def filter (h : Host) (a : Arguments) : Log.Filter :=
  ((h.variableValue? "FILESDB_LOG").bind Log.Filter.parse?).getD
    [⟨Topic.command.name, a.level.rank⟩]

/-- The lines of a run: what became of the repositories, and the messages. -/
def lines (h : Host) (a : Arguments) (log : List LogRecord) (events : List Event) :
    List Terminal.Line :=
  let look := if a.json then Terminal.Look.json else .plain (!a.noColor)
  let shown := if a.json then []
    else Terminal.runLines (!a.noColor) (isInteractive h a) events
  shown ++ (log.filter (filter h a).shows).map look.line

/-- How a run ends. -/
structure Outcome where
  status : Nat
  lines : List Terminal.Line := []
  /-- The text that follows the lines on the output. -/
  text : String := ""
  error : Option CommandError := none
  deriving DecidableEq, Repr

/-- The end of a run whose command line names nothing to do. -/
def Outcome.ofUsage (e : UsageError) : Outcome :=
  if e.isAnswer then { status := 0, text := e.message }
  else { status := 2, lines := [⟨.remarks, Terminal.withoutLineFeeds e.message⟩] }

/-- Runs the program. -/
def run (h : Host) (words : List String) : Run Outcome := do
  match Arguments.ofWords words with
  | .error e => return .ofUsage e
  | .ok a =>
    -- Only what this run adds to messages and events is shown.
    let before ← get
    let result ← (execute h a).run
    let after ← get
    let lines := lines h a (after.log.drop before.log.length)
      (after.events.drop before.events.length)
    match result with
    | .ok text => return { status := 0, lines, text }
    | .error e => return { status := 1, lines, error := some e }

end FileListCache.Program
