/-
  FileListCache.ConfigError

  What can be wrong with the settings and with the mirror list.
-/

import FileListCache.Diagnostic
import FileListCache.HostError

namespace FileListCache

/-- Why the settings or the mirror list could not be used. -/
inductive ConfigError
  | access (path : String) (source : IoError)
  | includeAccess (path reason : String)
  | read (path : String) (source : IoError)
  | malformed
  | unknownRepository (name : String)
  | host (source : HostError)
  deriving DecidableEq, Repr

namespace ConfigError

/-- The sentence a user reads. -/
def message : ConfigError → String
  | access path source => "Failed to open " ++ path ++ ": " ++ source.message
  | includeAccess path reason => "Failed to open include file " ++ path ++ ": " ++ reason
  | read path source => "Failed to read " ++ path ++ ": " ++ source.message
  | malformed => "TOML deserialization error"
  | unknownRepository name => "Unknown repository: " ++ name
  | host source => source.message

/-- The sentences of the errors behind it, nearest first. -/
def causes : ConfigError → List String
  | access _ source | read _ source => [source.message]
  | includeAccess .. | malformed | unknownRepository _ => []
  | host source => source.causes

/-- How the error is reported. -/
def diagnostic : ConfigError → Diagnostic
  | access .. => ⟨"filesdb_config::config_access",
      some "Check that the mirror configuration exists and is readable"⟩
  | includeAccess .. => ⟨"filesdb_config::include_access",
      some "The repository gains no servers from this include"⟩
  | read .. => ⟨"filesdb_config::read", none⟩
  | malformed => ⟨"filesdb_config::toml_deserialize",
      some "Check your config.toml syntax and structure"⟩
  | unknownRepository _ => ⟨"filesdb_config::unknown_repository",
      some "Run `filesdb repos` to list the repositories found in the mirror configuration"⟩
  | host _ => ⟨"filesdb_config::utils", none⟩

end ConfigError

end FileListCache
