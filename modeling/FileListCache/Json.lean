/-
  FileListCache.Json

  Values as JSON text, for programs that read the output: on one line, or indented.
-/

namespace FileListCache

/-- A value that can be written as JSON. -/
inductive Json
  | null
  | number (n : Nat)
  | text (s : String)
  | array (items : List Json)
  | object (fields : List (String × Json))

namespace Json

/-- Four hexadecimal digits. -/
def hex4 (n : Nat) : List Char :=
  [n / 4096 % 16, n / 256 % 16, n / 16 % 16, n % 16].map Nat.digitChar

/-- A character as it stands in a quoted text. -/
def escaped (c : Char) : List Char :=
  match c with
  | '"' => ['\\', '"']
  | '\\' => ['\\', '\\']
  | '\x08' => ['\\', 'b']
  | '\t' => ['\\', 't']
  | '\n' => ['\\', 'n']
  | '\x0c' => ['\\', 'f']
  | '\r' => ['\\', 'r']
  | c => if c.toNat < 0x20 then '\\' :: 'u' :: hex4 c.toNat else [c]

/-- A text in quotes. -/
def quote (s : String) : String := String.ofList ('"' :: s.toList.flatMap escaped ++ ['"'])

mutual

/-- The value on one line, without blanks. -/
def compact : Json → String
  | null => "null"
  | number n => toString n
  | text s => quote s
  | array items => "[" ++ ",".intercalate (compactItems items) ++ "]"
  | object fields => "\x7b" ++ ",".intercalate (compactFields fields) ++ "\x7d"

/-- The items of a list, each on one line. -/
def compactItems : List Json → List String
  | [] => []
  | item :: items => compact item :: compactItems items

/-- The fields of an object, each on one line. -/
def compactFields : List (String × Json) → List String
  | [] => []
  | (name, value) :: fields => (quote name ++ ":" ++ compact value) :: compactFields fields

end

/-- Lines between brackets, indented by two blanks more than the brackets. -/
def block (indent : Nat) (first last : String) (lines : List String) : String :=
  let blanks (n : Nat) : String := String.ofList (List.replicate n ' ')
  if lines.isEmpty then first ++ last
  else
    first ++ "\n" ++ ",\n".intercalate (lines.map fun l => blanks (indent + 2) ++ l) ++ "\n" ++
      blanks indent ++ last

mutual

/-- The value with one item or field on a line, all but the first line indented. -/
def pretty (indent : Nat) : Json → String
  | null => "null"
  | number n => toString n
  | text s => quote s
  | array items => block indent "[" "]" (prettyItems (indent + 2) items)
  | object fields => block indent "\x7b" "\x7d" (prettyFields (indent + 2) fields)

/-- The items of a list. -/
def prettyItems (indent : Nat) : List Json → List String
  | [] => []
  | item :: items => pretty indent item :: prettyItems indent items

/-- The fields of an object. -/
def prettyFields (indent : Nat) : List (String × Json) → List String
  | [] => []
  | (name, value) :: fields =>
    (quote name ++ ": " ++ pretty indent value) :: prettyFields indent fields

end

/-- A text, or nothing. -/
def ofText? (s : Option String) : Json := (s.map text).getD null

/-- A list of texts. -/
def ofTexts (l : List String) : Json := array (l.map text)

end Json

end FileListCache
