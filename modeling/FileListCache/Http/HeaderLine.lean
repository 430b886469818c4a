/-
  FileListCache.Http.HeaderLine

  Header lines as a user writes them: a name, a colon and a value.
-/

import FileListCache.Http.Message
import FileListCache.Text.Character

namespace FileListCache.Http.HeaderLine

/-- Characters of header names. -/
def isNameChar (c : Char) : Bool := c.isAlphanum || "!#$%&'*+-.^_`|~".toList.contains c

/-- Whether a text can be the name of a header. -/
def isName (s : String) : Bool := s ≠ "" && s.toList.all isNameChar

/-- Characters of header values: tabs, and all that is not a control character of ASCII. -/
def isValueChar (c : Char) : Bool := c = '\t' || (0x20 ≤ c.toNat && c.toNat ≠ 0x7f)

/-- Whether a text can be the value of a header. -/
def isValue (s : String) : Bool := s.toList.all isValueChar

/-- The header that a line stands for. Blanks around its name and its value do not count. -/
def parse? (line : String) : Option Header :=
  match Text.splitFirst (· = ':') line.toList with
  | none => none
  | some (name, value) =>
    let name := String.ofList (Text.trim name)
    let value := String.ofList (Text.trim value)
    if isName name && isValue value then some (name.toLower, value) else none

/-- Adds a header in place of one of the same name. -/
def insert (headers : List Header) (h : Header) : List Header :=
  headers.filter (fun other => !sameName other.1 h.1) ++ [h]

/-- The headers of some lines; the error is the first line that is none. -/
def parseAll (lines : List String) : Except String (List Header) :=
  lines.foldlM (fun headers line =>
    match parse? line with
    | some h => .ok (insert headers h)
    | none => .error line) []

end FileListCache.Http.HeaderLine
