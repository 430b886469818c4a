/-
  FileListCache.Settings

  The user's settings: read from a TOML file, written as one, and looked up with what the
  environment says instead.
-/

import FileListCache.ConfigError
import FileListCache.Disk
import FileListCache.Json
import FileListCache.Text.Count
import FileListCache.Toml.Document

namespace FileListCache

/-- What a user can set. -/
structure Settings where
  /-- The path of the mirror list, in the path notation. -/
  mirrorConfig : String := "/etc/pacman.conf"
  /-- The path of the cache, in the path notation. -/
  cachePath : String := "/var/cache/filesdb"
  /-- The architecture that servers are asked for. -/
  architecture : String := "auto"
  /-- What the program calls itself to servers. -/
  userAgent : Option String := none
  proxy : Option String := none
  /-- How many seconds a transfer may take. -/
  timeout : Option Nat := none
  deriving DecidableEq, Repr

namespace Settings

/-! ## Reading -/

/-- The text that a name has, if it has a value. -/
def textField (fields : Toml.Fields) (name : String) : Except ConfigError (Option String) :=
  match fields.find? name with
  | none => .ok none
  | some (.text s) => .ok (some s)
  | some _ => .error .malformed

/-- The number that a name has, if it has a value. -/
def numberField (fields : Toml.Fields) (name : String) : Except ConfigError (Option Nat) :=
  match fields.find? name with
  | none => .ok none
  | some (.integer n) =>
    if 0 ≤ n ∧ n ≤ Text.largestCount then .ok (some n.toNat) else .error .malformed
  | some _ => .error .malformed

/-- The settings of a document. Names that are not given keep their usual values, and names
without a meaning are passed over. -/
def ofFields (fields : Toml.Fields) : Except ConfigError Settings := do
  let usual : Settings := {}
  return {
    mirrorConfig := (← textField fields "mirror_config").getD usual.mirrorConfig
    cachePath := (← textField fields "cache_path").getD usual.cachePath
    architecture := (← textField fields "architecture").getD usual.architecture
    userAgent := ← textField fields "user_agent"
    proxy := ← textField fields "proxy"
    timeout := ← numberField fields "timeout" }

/-- The settings that a text holds. -/
def ofToml (s : String) : Except ConfigError Settings :=
  match Toml.document? s with
  | some fields => ofFields fields
  | none => .error .malformed

/-- The file that holds the settings unless another is named. -/
def defaultPath (h : Host) : String :=
  (h.variableValue? "FILESDB_CONFIG").getD
    (Path.join (Path.join h.settingsHome "filesdb") "config.toml")

/-- Reads the settings from a file; one that is missing stands for the usual settings. -/
def load (h : Host) (path : Option String) : Attempt ConfigError Settings := do
  let path := path.getD (defaultPath h)
  match ← (Disk.readAll h path).run with
  | .error e =>
    -- No settings are no error, but settings that cannot be read are.
    if e.isMissing then
      World.note .debug .settings ("config " ++ path ++ " not found, using defaults")
      return {}
    else throw (.read path e)
  | .ok bytes =>
    match Utf8.strict? bytes with
    | none => throw (.read path .notUtf8)
    | some text =>
      World.note .debug .settings ("loading config from " ++ path)
      ofToml text

/-! ## Writing -/

/-- A line that gives a name a text. -/
def textLine (name value : String) : String :=
  name ++ " = " ++ String.ofList (Toml.Quoted.write value.toList) ++ "\n"

/-- The settings as a TOML text. What is not set is left out. -/
def toToml (s : Settings) : String :=
  textLine "mirror_config" s.mirrorConfig ++ textLine "cache_path" s.cachePath ++
    textLine "architecture" s.architecture ++
    ((s.userAgent.map (textLine "user_agent")).getD "") ++
    ((s.proxy.map (textLine "proxy")).getD "") ++
    ((s.timeout.map fun n => "timeout = " ++ toString n ++ "\n").getD "")

/-- The settings as a JSON value. -/
def toJson (s : Settings) : Json :=
  .object [
    ("mirror_config", .text s.mirrorConfig),
    ("cache_path", .text s.cachePath),
    ("architecture", .text s.architecture),
    ("user_agent", .ofText? s.userAgent),
    ("proxy", .ofText? s.proxy),
    ("timeout", (s.timeout.map Json.number).getD .null)]

/-! ## What they mean -/

/-- The path of the mirror list. -/
def mirrorConfigPath (h : Host) (s : Settings) : Except ConfigError String :=
  (PathNotation.resolve h s.mirrorConfig).mapError fun e => .host (.path e)

/-- The path of the cache. The variable `FILESDB_CACHE` comes first unless it is blank. -/
def cacheDirectory (h : Host) (s : Settings) : Except ConfigError String :=
  let path :=
    match h.variableValue? "FILESDB_CACHE" with
    | some path => if Text.trimmed path = "" then s.cachePath else path
    | none => s.cachePath
  (PathNotation.resolve h path).mapError fun e => .host (.path e)

/-- The architecture that stands in addresses; `auto` and a blank one mean that of the machine. -/
def architectureName (h : Host) (s : Settings) : String :=
  let name := Text.trimmed s.architecture
  if name = "" ∨ name = "auto" then h.machine else name

end Settings

end FileListCache
