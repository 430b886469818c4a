/-
  FileListCache.CommandLine.UsageError

  Why a command line names nothing to do: it asks for information about the program, or something
  in it is wrong.
-/

import FileListCache.CommandLine.Option

namespace FileListCache.CommandLine

/-- Why a command line names nothing to do. -/
inductive UsageError
  | helpWanted
  | versionWanted
  /-- Nothing is said at all. -/
  | empty
  /-- There are options only. -/
  | noCommand
  | unknownCommand (word : String)
  | unknownArgument (word : String)
  /-- An option that takes no value has one. -/
  | needlessValue (option : Opt)
  | missingValue (option : Setting)
  | malformedValue (option : Setting) (value : String)
  | repeated (option : Opt)
  deriving DecidableEq, Repr

namespace UsageError

/-- What `--help` shows. -/
def help : String :=
  "Usage: filesdb [OPTIONS] <COMMAND>\n\n" ++
  "Commands:\n" ++
  "  sync [NAMES]        Download and unpack the file lists of repositories [alias: S]\n" ++
  "  repos [--expand]    List the repositories of the mirror configuration [alias: ls]\n" ++
  "  config              Print the settings\n" ++
  "  help                Print this text\n\n" ++
  "Options:\n" ++
  "  -v, --verbose              Show more messages\n" ++
  "  -q, --quiet                Show errors only\n" ++
  "  -j, --json                 Write JSON\n" ++
  "      --no-color             Write without colors\n" ++
  "      --no-progress          Show no progress\n" ++
  "  -c, --config PATH          Read settings from this file\n" ++
  "      --mirror-config PATH   Read repositories from this file\n" ++
  "      --cache-path PATH      Keep file lists in this directory\n" ++
  "      --arch NAME            Ask servers for this architecture\n" ++
  "  -P, --proxy URL            Ask servers through a proxy\n" ++
  "  -H, --header LINE          Send a header with each request\n" ++
  "  -A, --user-agent NAME      Name the program so to servers\n" ++
  "      --timeout SECONDS      Give up a request after this time\n" ++
  "  -h, --help                 Print this text\n" ++
  "  -V, --version              Print the version\n"

/-- What `--version` shows. -/
def version : String := "filesdb-cli 0.1.0\n"

/-- What a user reads. -/
def message : UsageError → String
  | helpWanted | empty => help
  | versionWanted => version
  | noCommand => "error: a command is missing\n"
  | unknownCommand word => "error: unknown command " ++ word ++ "\n"
  | unknownArgument word => "error: unexpected argument " ++ word ++ "\n"
  | needlessValue option => "error: --" ++ option.name ++ " takes no value\n"
  | missingValue option => "error: --" ++ option.name ++ " needs a value\n"
  | malformedValue option value =>
    "error: " ++ value ++ " is no value of --" ++ option.name ++ "\n"
  | repeated option => "error: --" ++ option.name ++ " is given twice\n"

/-- Whether the user got what was asked for. -/
def isAnswer : UsageError → Bool
  | helpWanted | versionWanted => true
  | _ => false

end UsageError

end FileListCache.CommandLine
