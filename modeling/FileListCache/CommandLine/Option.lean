/-
  FileListCache.CommandLine.Option

  The options of the command line and their names. Most can stand in front of the command as well
  as behind its name; a few belong to one of these places only.
-/

namespace FileListCache.CommandLine

/-- Where options stand: in front of the command, or behind the name of one. -/
inductive Place
  | front
  | sync
  | repositories
  | config
  deriving DecidableEq, Repr

/-- Options that take no value. -/
inductive Switch
  | verbose
  | quiet
  | json
  | noColor
  | noProgress
  /-- Show addresses instead of servers. -/
  | expand
  | help
  | version
  deriving DecidableEq, Repr

/-- Options that take a value. -/
inductive Setting
  | config
  | mirrorConfig
  | cachePath
  | architecture
  | proxy
  | header
  | userAgent
  | timeout
  deriving DecidableEq, Repr

/-- An option. -/
inductive Opt
  | switch (s : Switch)
  | setting (s : Setting)
  deriving DecidableEq, Repr

namespace Switch

/-- The name behind two dashes. -/
def name : Switch → String
  | verbose => "verbose"
  | quiet => "quiet"
  | json => "json"
  | noColor => "no-color"
  | noProgress => "no-progress"
  | expand => "expand"
  | help => "help"
  | version => "version"

/-- The letter behind one dash. -/
def letter? : Switch → Option Char
  | verbose => some 'v'
  | quiet => some 'q'
  | json => some 'j'
  | noColor | noProgress => none
  | expand => some 'e'
  | help => some 'h'
  | version => some 'V'

/-- Whether the option can stand in a place. -/
def fits (p : Place) : Switch → Bool
  | expand => p = .repositories
  | version => p = .front
  | _ => true

/-- All options of this kind. -/
def all : List Switch := [verbose, quiet, json, noColor, noProgress, expand, help, version]

end Switch

namespace Setting

/-- The name behind two dashes. -/
def name : Setting → String
  | config => "config"
  | mirrorConfig => "mirror-config"
  | cachePath => "cache-path"
  | architecture => "arch"
  | proxy => "proxy"
  | header => "header"
  | userAgent => "user-agent"
  | timeout => "timeout"

/-- The letter behind one dash. -/
def letter? : Setting → Option Char
  | config => some 'c'
  | proxy => some 'P'
  | header => some 'H'
  | userAgent => some 'A'
  | mirrorConfig | cachePath | architecture | timeout => none

/-- All options of this kind. -/
def all : List Setting :=
  [config, mirrorConfig, cachePath, architecture, proxy, header, userAgent, timeout]

end Setting

namespace Opt

/-- The name behind two dashes. -/
def name : Opt → String
  | switch s => s.name
  | setting s => s.name

/-- The letter behind one dash. -/
def letter? : Opt → Option Char
  | switch s => s.letter?
  | setting s => s.letter?

/-- The options that can stand in a place. -/
def allAt (p : Place) : List Opt :=
  (Switch.all.filter (·.fits p)).map switch ++ Setting.all.map setting

/-- The option with a name. -/
def ofName? (p : Place) (name : String) : Option Opt := (allAt p).find? (·.name = name)

/-- The option with a letter. -/
def ofLetter? (p : Place) (c : Char) : Option Opt := (allAt p).find? (·.letter? = some c)

end Opt

end FileListCache.CommandLine
