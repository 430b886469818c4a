/-
  FileListCache.Log

  The messages that a run leaves for its user, each with a level and the topic it belongs to,
  and the filters by which a user chooses among them.
-/

import FileListCache.Text.Character
import FileListCache.Text.Count

namespace FileListCache

/-- How much a message matters. -/
inductive Level
  | error
  | warn
  | info
  | debug
  | trace
  deriving DecidableEq, Repr

namespace Level

/-- One for errors, more for what matters less. -/
def rank : Level → Nat
  | error => 1
  | warn => 2
  | info => 3
  | debug => 4
  | trace => 5

/-- The name in log lines. -/
def name : Level → String
  | error => "ERROR"
  | warn => "WARN"
  | info => "INFO"
  | debug => "DEBUG"
  | trace => "TRACE"

end Level

/-- The part of the program that a message comes from. -/
inductive Topic
  | command
  | commandRepos
  | commandSync
  | settings
  | mirrorList
  | archive
  | transcode
  | fetch
  | download
  | sync
  deriving DecidableEq, Repr

/-- The name by which a filter refers to the topic. -/
def Topic.name : Topic → String
  | command => "filesdb"
  | commandRepos => "filesdb::repos"
  | commandSync => "filesdb::sync"
  | settings => "filesdb_config::config"
  | mirrorList => "filesdb_config::parser"
  | archive => "filesdb_archive::reader"
  | transcode => "filesdb_archive::transcode"
  | fetch => "filesdb_dl::fetch"
  | download => "filesdb_operations::download"
  | sync => "filesdb_operations::sync"

/-- A message of the run. -/
structure LogRecord where
  level : Level
  topic : Topic
  message : String
  deriving DecidableEq, Repr

namespace Log

/-- A rule of a filter: topics that start with `start` show messages up to the rank `most`. -/
structure Rule where
  start : String
  most : Nat
  deriving DecidableEq, Repr

/-- A filter; for each topic the rule with the longest matching start decides. -/
abbrev Filter := List Rule

/-- The rank that a level's name or number stands for. -/
def rankOf? (s : String) : Option Nat :=
  match s.toLower with
  | "off" => some 0
  | "error" => some 1
  | "warn" => some 2
  | "info" => some 3
  | "debug" => some 4
  | "trace" => some 5
  | _ => (Text.count? s).bind fun n => if n ≤ 5 then some n else none

/-- Characters that may begin a rule. -/
def isTopicStart (c : Char) : Bool := Text.isWord c || c = ':' || c = '-'

/-- Reads one rule: a level for all topics, a topic, or both with an equals sign between. A topic
without a level shows everything. Blanks belong to the names they stand beside, and none may stand
in front of a rule with an equals sign. -/
def Rule.parse? (s : String) : Option Rule :=
  if (Text.trimStart s.toList).head?.any isTopicStart then
    match Text.splitFirst (· = '=') s.toList with
    | some (topic, level) =>
      if topic.head?.any Text.isBlank then none
      else
        (if level.isEmpty then some Level.trace.rank else rankOf? (String.ofList level)).map
          fun most => ⟨String.ofList topic, most⟩
    | none =>
      match rankOf? s with
      | some most => some ⟨"", most⟩
      | none => some ⟨s, Level.trace.rank⟩
  else none

/-- Reads a filter: rules separated by commas. Without any rule only errors are shown. -/
def Filter.parse? (s : String) : Option Filter :=
  (((s.splitOn ",").filter (· ≠ "")).mapM Rule.parse?).map fun rules =>
    if rules.isEmpty then [⟨"", Level.error.rank⟩] else rules

/-- The rule that decides on a topic: of those that match, one with the longest start, and among
equal starts the last. -/
def Filter.deciding (f : Filter) (topic : String) : Option Rule :=
  (f.filter fun r => r.start.toList.isPrefixOf topic.toList).foldl
    (fun best r =>
      match best with
      | none => some r
      | some b => if b.start.length ≤ r.start.length then some r else some b) none

/-- Whether a filter lets a message through. -/
def Filter.shows (f : Filter) (r : LogRecord) : Bool :=
  match f.deciding r.topic.name with
  | some rule => r.level.rank ≤ rule.most
  | none => false

end Log

end FileListCache
