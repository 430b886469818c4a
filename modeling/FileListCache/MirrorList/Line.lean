/-
  FileListCache.MirrorList.Line

  The lines of a mirror list: section headers, directives, and what is neither.
-/

import FileListCache.Text.Character

namespace FileListCache.MirrorList

/-- What a line of a mirror list says. -/
inductive Line
  | header (name : String)
  | directive (key value : String)
  | other (text : String)
  deriving DecidableEq, Repr

namespace Line

/-- A line without its comment and the blanks around it. -/
def content (raw : List Char) : List Char := Text.trim (raw.takeWhile (· ≠ '#'))

/-- What stands between brackets that enclose the whole line. -/
def bracketed? (line : List Char) : Option (List Char) :=
  match line with
  | '[' :: rest => if rest.getLast? = some ']' then some rest.dropLast else none
  | _ => none

/-- Reads a line; nothing remains of one that is blank or a comment. -/
def ofText? (raw : List Char) : Option Line :=
  let line := content raw
  if line.isEmpty then none
  else
    match bracketed? line with
    | some name => some (.header (String.ofList name))
    | none =>
      match Text.splitFirst (· = '=') line with
      | some (key, value) =>
        some (.directive (String.ofList (Text.trim key)) (String.ofList (Text.trim value)))
      | none => some (.other (String.ofList line))

end Line

end FileListCache.MirrorList
