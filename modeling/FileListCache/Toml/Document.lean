/-
  FileListCache.Toml.Document

  Reading a TOML document: lines that give a name its value, headers that open tables, and the
  values themselves, which nest to a fixed depth.
-/

import FileListCache.Toml.Scalar

namespace FileListCache.Toml

/-- Takes a part off the start of a text. -/
abbrev Reader (α : Type) := List Char → Option (α × List Char)

/-! ## Blanks -/

/-- A text without the blanks at its start. -/
def skipSpace (cs : List Char) : List Char := cs.dropWhile Quoted.isSpace

/-- The text behind a line break. -/
def lineBreak? : List Char → Option (List Char)
  | '\n' :: rest => some rest
  | '\r' :: '\n' :: rest => some rest
  | _ => none

/-- Skips blanks and a comment, up to the end of the line. A comment holds no control characters,
and a carriage return ends it only before a line feed. -/
def skipComment (cs : List Char) : Option (List Char) :=
  match skipSpace cs with
  | '#' :: rest =>
    let behind := rest.dropWhile fun c => !Quoted.isControl c
    if behind.isEmpty ∨ (lineBreak? behind).isSome then some behind else none
  | rest => some rest

/-- Skips blanks, comments and at most `lines` line breaks. -/
def skipLines : Nat → List Char → Option (List Char)
  | 0, cs => skipComment cs
  | lines + 1, cs => do
    let cs ← skipComment cs
    match lineBreak? cs with
    | some rest => skipLines lines rest
    | none => return cs

/-- Skips blanks, comments and line breaks. -/
def skipBlank (cs : List Char) : Option (List Char) := skipLines cs.length cs

/-! ## Keys -/

/-- Characters of a name without quotes. -/
def isBare (c : Char) : Bool := c.isAlphanum || c = '_' || c = '-'

/-- Reads one name. -/
def name? : Reader String := fun cs =>
  match Quoted.oneLine? cs with
  | some (name, rest) => some (String.ofList name, rest)
  | none =>
    let name := cs.takeWhile isBare
    if name.isEmpty then none else some (String.ofList name, cs.dropWhile isBare)

/-- Reads names with dots between them, of at most `count` dots. The last name comes apart. -/
def key? : Nat → Reader (List String × String)
  | 0, _ => none
  | count + 1, cs => do
    let (name, rest) ← name? (skipSpace cs)
    match skipSpace rest with
    | '.' :: more => do
      let ((path, last), rest) ← key? count more
      return ((name :: path, last), rest)
    | rest => return (([], name), rest)

/-- Reads a key, an equals sign and a value. -/
def assignment? (value : Reader Value) : Reader ((List String × String) × Value) := fun cs => do
  let (key, rest) ← key? cs.length cs
  match rest with
  | '=' :: rest => do
    let (v, rest) ← value (skipSpace rest)
    return ((key, v), rest)
  | _ => none

/-! ## Values -/

/-- Reads the items of a list up to the bracket that closes it; there are at most `count`. -/
def items? (value : Reader Value) : Nat → Reader (List Value)
  | 0, _ => none
  | count + 1, cs => do
    match ← skipBlank cs with
    | ']' :: rest => return ([], rest)
    | cs => do
      let (v, rest) ← value cs
      match ← skipBlank rest with
      | ',' :: rest => do
        let (vs, rest) ← items? value count rest
        return (v :: vs, rest)
      | ']' :: rest => return ([v], rest)
      | _ => none

/-- Reads the fields of a table up to the brace that closes it; there are at most `count`. -/
def fields? (value : Reader Value) : Nat → Fields → Reader Fields
  | 0, _, _ => none
  | count + 1, done, cs => do
    match ← skipBlank cs with
    | '\x7d' :: rest => return (done, rest)
    | cs => do
      let (((path, key), v), rest) ← assignment? value cs
      let done ← Fields.assign path key v .braces done
      match ← skipBlank rest with
      | ',' :: rest => fields? value count done rest
      | '\x7d' :: rest => return (done, rest)
      | _ => none

/-- Reads a text or a word. -/
def scalar? : Reader Value := fun cs =>
  match cs with
  | '"' :: _ | '\'' :: _ => (Quoted.read? cs).map fun r => (.text (String.ofList r.1), r.2)
  | _ =>
    let (word, rest) := Scalar.word cs
    (Scalar.ofWord? word).map (·, rest)

/-- How deep lists and tables may be nested. -/
def deepest : Nat := 80

/-- Reads a value in which lists and tables are nested at most `depth` deep. -/
def value? : Nat → Reader Value
  | 0, cs => scalar? cs
  | depth + 1, cs =>
    match cs with
    | '[' :: rest =>
      (items? (value? depth) (rest.length + 1) rest).map fun r => (.array false r.1, r.2)
    | '\x7b' :: rest =>
      (fields? (value? depth) (rest.length + 1) [] rest).map fun r => (.table .braces r.1, r.2)
    | _ => scalar? cs

/-! ## Lines -/

/-- Reads a line, with the headers of the tables it belongs to as the path `current`, and gives
the path for the next line and the document so far. -/
def line? (current : List String) (root : Fields) (cs : List Char) :
    Option ((List String × Fields) × List Char) :=
  match skipSpace cs with
  | '[' :: '[' :: rest => do
    let ((path, key), rest) ← key? rest.length rest
    match rest with
    | ']' :: ']' :: rest => return ((path ++ [key], ← Fields.openElement path key root), rest)
    | _ => none
  | '[' :: rest => do
    let ((path, key), rest) ← key? rest.length rest
    match rest with
    | ']' :: rest => return ((path ++ [key], ← Fields.openTable path key root), rest)
    | _ => none
  | cs =>
    if cs.isEmpty ∨ cs.head? = some '#' ∨ (lineBreak? cs).isSome then some ((current, root), cs)
    else do
      let (((path, key), v), rest) ← assignment? (value? deepest) cs
      -- The key is seen from the table whose header was read last.
      let root ← Fields.changeAt false (Fields.assign path key v) current .header root
      return ((current, root), rest)

/-- Reads at most `count` lines. -/
def lines? : Nat → List String → Fields → List Char → Option Fields
  | 0, _, _, _ => none
  | count + 1, current, root, cs => do
    let ((current, root), rest) ← line? current root cs
    let rest ← skipComment rest
    match lineBreak? rest with
    | some rest => lines? count current root rest
    | none => if rest.isEmpty then some root else none

/-- The mark that may stand before a text. -/
def byteOrderMark : Char := Char.ofNat 0xfeff

/-- The names of a document and their values. -/
def document? (s : String) : Option Fields :=
  let cs := if s.toList.head? = some byteOrderMark then s.toList.drop 1 else s.toList
  lines? (cs.length + 1) [] [] cs

end FileListCache.Toml
