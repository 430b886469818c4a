/-
  FileListCache.Terminal.Message

  Messages as lines: ordinary ones on the output, all others among the remarks. Either a message
  is text with a tag that shows its level, or it is an object for programs.
-/

import FileListCache.Json
import FileListCache.Log
import FileListCache.Text.Utf8
import FileListCache.Terminal.Line

namespace FileListCache.Terminal

/-- How messages look. -/
inductive Look
  | plain (colors : Bool)
  | json
  deriving DecidableEq, Repr

/-- The tag of a level. Ordinary messages have none. -/
def tag? : Level → Option (Color × String)
  | .error => some (.red, "[ERROR]")
  | .warn => some (.yellow, "[WARN]")
  | .info => none
  | .debug => some (.blue, "[DEBUG]")
  | .trace => some (.magenta, "[TRACE]")

/-- The text of a message. -/
def Look.text (look : Look) (r : LogRecord) : String :=
  match look with
  | plain colors =>
    match tag? r.level with
    | some (color, tag) => paint colors color tag ++ " " ++ r.message
    | none => r.message
  | json => (Json.object [("level", .text r.level.name), ("message", .text r.message)]).compact

/-- The stream for messages of a level. -/
def streamOf (l : Level) : Stream := if l = .info then .output else .remarks

/-- A text without line feeds at its end. -/
def withoutLineFeeds (s : String) : String :=
  String.ofList ((s.toList.reverse.dropWhile (· = '\n')).reverse)

/-- The line of a message. -/
def Look.line (look : Look) (r : LogRecord) : Line :=
  ⟨streamOf r.level, withoutLineFeeds (look.text r)⟩

/-- The line that a message in pieces of bytes makes. Where there is no byte there is no line. -/
def lineOfBytes? (s : Stream) (pieces : List Bytes) : Option Line :=
  let bytes := pieces.flatten
  if bytes.isEmpty then none else some ⟨s, withoutLineFeeds (Utf8.lossy bytes)⟩

end FileListCache.Terminal
