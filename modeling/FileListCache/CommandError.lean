/-
  FileListCache.CommandError

  Why a command of the program failed.
-/

import FileListCache.ConfigError
import FileListCache.SyncError

namespace FileListCache

/-- Why a command failed. -/
inductive CommandError
  | config (source : ConfigError)
  | sync (source : SyncError)
  | invalidProxy (address : String)
  | invalidHeader (line : String)
  /-- Some repositories were not synced. -/
  | incomplete (names : List String)
  deriving DecidableEq, Repr

namespace CommandError

/-- The sentence a user reads. -/
def message : CommandError → String
  | config source => source.message
  | sync source => source.message
  | invalidProxy address => "Invalid proxy " ++ address ++ ": invalid proxy url"
  | invalidHeader line => "Invalid header: " ++ line
  | incomplete names => "Failed to sync: " ++ ", ".intercalate names

/-- How the error is reported. -/
def diagnostic : CommandError → Diagnostic
  | config source => source.diagnostic
  | sync source => source.diagnostic
  | invalidProxy _ => ⟨"filesdb::invalid_proxy",
      some "Use a URL such as http://host:port or socks5://host:port"⟩
  | invalidHeader _ => ⟨"filesdb::invalid_header",
      some "Headers take the form `Name: value`"⟩
  | incomplete _ => ⟨"filesdb::sync_failed",
      some "See the warnings above for the mirrors that were tried"⟩

/-- The report that ends a failed run. -/
def report (e : CommandError) : String :=
  "Error: " ++ e.diagnostic.code ++ "\n\n  × " ++ e.message ++ "\n" ++
    (e.diagnostic.help.map fun help => "  help: " ++ help ++ "\n").getD ""

end CommandError

end FileListCache
