/-
  FileListCache.PathNotation

  The notation for paths in settings: variables, with or without braces, and a tilde for the home
  directory at the start. Paths that are not absolute are seen from the working directory.
-/

import FileListCache.IoError
import FileListCache.Path
import FileListCache.World

namespace FileListCache

/-- Why a path could not be resolved. -/
inductive PathError
  | noDirectory (source : IoError)
  | empty
  | missingVariable (name input : String)
  | unclosed (input : String)
  deriving DecidableEq, Repr

namespace PathError

/-- The sentence a user reads. -/
def message : PathError → String
  | noDirectory source => "Failed to get current directory: " ++ source.message
  | empty => "Path is empty"
  | missingVariable name input =>
    "Environment variable `" ++ name ++ "` not set in `" ++ input ++ "`"
  | unclosed input => "Unclosed variable expression starting at `" ++ input ++ "`"

/-- The sentences of the errors behind it, nearest first. -/
def causes : PathError → List String
  | noDirectory source => [source.message]
  | _ => []

end PathError

namespace Host

/-- The user's home directory: the variable `HOME`, or what the account says. -/
def home (h : Host) : String := (h.variableValue? "HOME").getD h.accountHome

/-- The directory of the user's settings: `XDG_CONFIG_HOME`, or `.config` in the home. -/
def settingsHome (h : Host) : String :=
  (h.variableValue? "XDG_CONFIG_HOME").getD (Path.join h.home ".config")

end Host

namespace PathNotation

/-- The value of a variable in a path. The two directories of the user always have one. -/
def valueOf (h : Host) (name : String) : Option String :=
  match name with
  | "HOME" => some h.home
  | "XDG_CONFIG_HOME" => some h.settingsHome
  | _ => h.variableValue? name

/-- Appends the value of a variable to what was expanded so far. -/
def expandVariable (h : Host) (input : String) (name done : List Char) :
    Except PathError (List Char) :=
  match valueOf h (String.ofList name) with
  | some value => .ok (done ++ value.toList)
  | none => .error (.missingVariable (String.ofList name) input)

/-- Expands the characters that are left after `done`; `input` is quoted in errors. -/
def expandFrom (h : Host) (input : String) (cs done : List Char) : Except PathError (List Char) :=
  match cs with
  | [] => .ok done
  | '$' :: '\x7b' :: rest =>
    match _hs : Text.splitFirst (· = '\x7d') rest with
    | none => .error (.unclosed (String.ofList ('$' :: '\x7b' :: rest)))
    | some (name, after) => do
      let done ← expandVariable h input name done
      expandFrom h input after done
  | '$' :: rest =>
    let name := rest.takeWhile Text.isWord
    if name.isEmpty then expandFrom h input rest (done ++ ['$'])
    else do
      let done ← expandVariable h input name done
      expandFrom h input (rest.dropWhile Text.isWord) done
  | c :: rest =>
    if c = '~' ∧ done.isEmpty then expandFrom h input rest h.home.toList
    else expandFrom h input rest (done ++ [c])
termination_by cs.length
decreasing_by
  · have := Text.length_splitFirst _hs
    simp only [List.length_cons]
    omega
  · simp
  · have := (List.dropWhile_suffix Text.isWord (l := rest)).length_le
    simp only [List.length_cons]
    omega
  · simp
  · simp

/-- Expands the variables and the tilde of a path. -/
def expand (h : Host) (input : String) : Except PathError String :=
  (expandFrom h input input.toList []).map String.ofList

/-- The absolute path that a path in the notation stands for. -/
def resolve (h : Host) (input : String) : Except PathError String := do
  let input := Text.trimmed input
  if input = "" then throw .empty
  let path ← expand h input
  if Path.isAbsolute path then return path
  else
    match h.directory with
    | some directory => return Path.join directory path
    | none => throw (.noDirectory (.system .missing))

end PathNotation

end FileListCache
