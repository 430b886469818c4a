/-
  FileListCache.Url

  Addresses of documents: reading one into its parts, writing it again in the one form that all
  its spellings share, following a reference from it, and the file that an address names.
-/

import FileListCache.Url.Host

namespace FileListCache

/-- An address in its normal form. -/
structure Url where
  scheme : String
  /-- The user's name and password as they are written, if there are any. -/
  user : Option String := none
  host : Option String := none
  /-- The port, unless it is the usual one. -/
  port : Option Nat := none
  path : String
  query : Option String := none
  fragment : Option String := none
  deriving DecidableEq, Repr

namespace Url

/-! ## Writing -/

/-- What stands between the scheme and the path. -/
def authority (u : Url) : String :=
  match u.host with
  | none => if u.scheme = "file" then "//" else if u.path.startsWith "//" then "/." else ""
  | some host =>
    "//" ++ (u.user.map (· ++ "@")).getD "" ++ host ++
      (u.port.map fun p => ":" ++ toString p).getD ""

/-- The address without its fragment. -/
def withoutFragment (u : Url) : String :=
  u.scheme ++ ":" ++ u.authority ++ u.path ++ (u.query.map ("?" ++ ·)).getD ""

/-- The address as a text. -/
def toText (u : Url) : String := u.withoutFragment ++ (u.fragment.map ("#" ++ ·)).getD ""

/-! ## Kinds of addresses -/

/-- The schemes of the web and their usual ports. -/
def webPorts : List (String × Nat) :=
  [("http", 80), ("https", 443), ("ws", 80), ("wss", 443), ("ftp", 21)]

/-- How the rest of an address is read. -/
inductive Kind
  | file
  | web
  | other
  deriving DecidableEq, Repr

/-- The kind of a scheme. -/
def Kind.ofScheme (scheme : String) : Kind :=
  if scheme = "file" then .file
  else if (webPorts.lookup scheme).isSome then .web
  else .other

/-- Whether a character separates the segments of a path; a backslash counts as a slash except in
other schemes. -/
def Kind.isSlash (k : Kind) (c : Char) : Bool := c = '/' || (c = '\\' && k ≠ .other)

/-- Whether a character ends the part before the path. -/
def Kind.endsHost (k : Kind) (c : Char) : Bool := k.isSlash c || c = '?' || c = '#'

/-! ## Paths -/

/-- Segments of a path that lead nowhere. -/
def isHere (cs : List Char) : Bool :=
  let s := (String.ofList cs).toLower
  s = "." || s = "%2e"

/-- Segments of a path that lead up. -/
def isUp (cs : List Char) : Bool :=
  let s := (String.ofList cs).toLower
  s = ".." || s = ".%2e" || s = "%2e." || s = "%2e%2e"

/-- Whether a segment is a letter and a colon or bar, the name of a drive. -/
def isDrive (cs : List Char) : Bool :=
  match cs with
  | [c, d] => c.isAlpha && (d = ':' || d = '|')
  | _ => false

/-- The segments of a path, up to where the path ends. -/
def segments (k : Kind) : List Char → List (List Char)
  | [] => [[]]
  | c :: cs =>
    if c = '?' ∨ c = '#' then [[]]
    else if k.isSlash c then [] :: segments k cs
    else
      match segments k cs with
      | [] => [[c]]
      | s :: ss => (c :: s) :: ss

/-- A path without its last segment; a drive stays. -/
def shorten (k : Kind) (path : List (List Char)) : List (List Char) :=
  match path with
  | [s] => if k = .file ∧ isDrive s then path else []
  | _ => path.dropLast

/-- A path with one more segment. -/
def extend (k : Kind) (path : List (List Char)) (segment : List Char) (last : Bool) :
    List (List Char) :=
  if isUp segment then
    let path := shorten k path
    if last then path ++ [[]] else path
  else if isHere segment then if last then path ++ [[]] else path
  else if k = .file ∧ path.isEmpty ∧ isDrive segment then
    path ++ [segment.take 1 ++ [':']]
  else path ++ [Percent.encode Percent.inPath segment]

/-- The path that segments lead to from `path`. -/
def follow (k : Kind) (path : List (List Char)) : List (List Char) → List (List Char)
  | [] => path
  | [s] => extend k path s true
  | s :: ss => follow k (extend k path s false) ss

/-- A path as it is written; the path of a file starts with one slash only. -/
def showPath (k : Kind) (path : List (List Char)) : List Char :=
  let cs := path.flatMap fun s => '/' :: s
  if k = .file then '/' :: cs.dropWhile (· = '/') else cs

/-- Reads a path from behind its first slash. -/
def readPath (k : Kind) (cs : List Char) : String :=
  String.ofList (showPath k (follow k [] (segments k cs)))

/-- Whether a path of a file starts with a drive, in which case it has no host. -/
def startsWithDrive (cs : List Char) : Bool := ((segments .file cs).head?).any isDrive

/-! ## Queries and fragments -/

/-- The text behind the path. -/
def afterPath (cs : List Char) : List Char := cs.dropWhile fun c => c ≠ '?' && c ≠ '#'

/-- The query behind a path. -/
def readQuery (k : Kind) (cs : List Char) : Option String :=
  match afterPath cs with
  | '?' :: rest =>
    some (String.ofList (Percent.encode (Percent.inQuery (k ≠ .other)) (rest.takeWhile (· ≠ '#'))))
  | _ => none

/-- The fragment at the end. -/
def readFragment (cs : List Char) : Option String :=
  match cs.dropWhile (· ≠ '#') with
  | '#' :: rest => some (String.ofList (Percent.encode Percent.inFragment rest))
  | _ => none

/-! ## Hosts and ports -/

/-- The user's name and password, and what follows them. -/
def readUser (k : Kind) (cs : List Char) : Except UrlError (Option String × List Char) :=
  let before := cs.takeWhile fun c => !k.endsHost c
  if before.contains '@' then
    -- The last at sign counts; those before it belong to the name or the password.
    let text := (before.reverse.dropWhile (· ≠ '@')).tail.reverse
    let rest := cs.drop (text.length + 1)
    if rest.isEmpty ∨ rest.head?.any k.endsHost then .error .emptyHost
    else
      let name := text.takeWhile (· ≠ ':')
      let password := (text.dropWhile (· ≠ ':')).drop 1
      let encode := Percent.encode Percent.inUser
      if name.isEmpty ∧ password.isEmpty then .ok (none, rest)
      else if password.isEmpty then .ok (some (String.ofList (encode name)), rest)
      else .ok (some (String.ofList (encode name ++ ':' :: encode password)), rest)
  else .ok (none, cs)

/-- The text of a host and what follows it. A colon ends the host unless it stands in brackets. -/
def splitHost (k : Kind) (inBrackets : Bool) : List Char → List Char × List Char
  | [] => ([], [])
  | c :: cs =>
    if k.endsHost c ∨ (c = ':' ∧ !inBrackets) then ([], c :: cs)
    else
      let inside := if c = '[' then true else if c = ']' then false else inBrackets
      let (host, rest) := splitHost k inside cs
      (c :: host, rest)

/-- The port behind a host, unless it is the usual one, and what follows it. -/
def readPort (usual : Option Nat) (cs : List Char) : Except UrlError (Option Nat × List Char) :=
  match cs with
  | ':' :: rest =>
    let ds := rest.takeWhile Char.isDigit
    let rest := rest.dropWhile Char.isDigit
    let n := ds.foldl (fun n c => 10 * n + (c.toNat - '0'.toNat)) 0
    if 65535 < n ∨ rest.head?.any fun c => !(['/', '\\', '?', '#'].contains c) then .error .badPort
    else if ds.isEmpty ∨ some n = usual then .ok (none, rest)
    else .ok (some n, rest)
  | _ => .ok (none, cs)

/-- Reads an address from behind the two slashes that begin its host. -/
def readHost (scheme : String) (k : Kind) (cs : List Char) : Except UrlError Url := do
  let (user, rest) ← readUser k cs
  let (text, rest) := splitHost k false rest
  -- Only in other schemes a host may be empty, and then nothing may belong to it.
  if text.isEmpty ∧ (k = .web ∨ rest.head? = some ':' ∨ user.isSome) then throw .emptyHost
  let host ← if k = .web then Host.ofText text else Host.verbatim text
  let (port, rest) ← readPort (webPorts.lookup scheme) rest
  let path :=
    match rest with
    | c :: more => if k.isSlash c then readPath k more else if k = .web then "/" else ""
    | [] => if k = .web then "/" else ""
  return { scheme, user, host := some (String.ofList host), port, path
           query := readQuery k rest, fragment := readFragment rest }

/-- Reads an address of a file from behind the scheme. -/
def readFileUrl (cs : List Char) : Except UrlError Url := do
  let make (host : Option String) (text : List Char) : Url :=
    { scheme := "file", host, path := readPath .file text
      query := readQuery .file text, fragment := readFragment text }
  match cs with
  | a :: b :: rest =>
    if Kind.file.isSlash a ∧ Kind.file.isSlash b then
      let text := rest.takeWhile fun c => !Kind.file.endsHost c
      let behind := rest.dropWhile fun c => !Kind.file.endsHost c
      let path := if behind.head?.any Kind.file.isSlash then behind.drop 1 else behind
      -- A drive in the place of the host is the start of the path.
      if isDrive text then return make none rest
      else if text.isEmpty then return make none path
      else
        let host ← Host.ofText text
        if host = "localhost".toList ∨ startsWithDrive path then return make none path
        else return make (some (String.ofList host)) path
    else if Kind.file.isSlash a then return make none (b :: rest)
    else return make none cs
  | [a] => return make none (if Kind.file.isSlash a then [] else [a])
  | [] => return make none []

/-! ## Reading -/

/-- The scheme of an address in small letters, and what follows the colon. -/
def scheme? (cs : List Char) : Option (String × List Char) :=
  match cs with
  | c :: _ =>
    let isPart (c : Char) : Bool := c.isAlphanum || c = '+' || c = '-' || c = '.'
    match cs.dropWhile isPart with
    | ':' :: rest =>
      if c.isAlpha then some ((String.ofList (cs.takeWhile isPart)).toLower, rest) else none
    | _ => none
  | [] => none

/-- The text that is read: controls and blanks at its ends do not count, and tabs and line breaks
nowhere. -/
def significant (s : String) : List Char :=
  let isEdge (c : Char) : Bool := c.toNat ≤ 0x20
  let cs := ((s.toList.dropWhile isEdge).reverse.dropWhile isEdge).reverse
  cs.filter fun c => c ≠ '\t' && c ≠ '\n' && c ≠ '\r'

/-- Reads an address. -/
def ofText (s : String) : Except UrlError Url :=
  match scheme? (significant s) with
  | none => .error .relative
  | some (scheme, rest) =>
    match Kind.ofScheme scheme with
    | .file => readFileUrl rest
    | .web => readHost scheme .web (rest.dropWhile Kind.web.isSlash)
    | .other =>
      match rest with
      | '/' :: '/' :: rest => readHost scheme .other rest
      | '/' :: rest =>
        .ok { scheme, path := readPath .other rest
              query := readQuery .other rest, fragment := readFragment rest }
      | _ =>
        let path := rest.takeWhile fun c => c ≠ '?' && c ≠ '#'
        .ok { scheme, path := String.ofList (Percent.encode Percent.isControl path)
              query := readQuery .other rest, fragment := readFragment rest }

/-- The address that a reference means, seen from an address. -/
def join (base : Url) (reference : String) : Except UrlError Url :=
  let cs := significant reference
  let k := Kind.ofScheme base.scheme
  let server := base.scheme ++ ":" ++ base.authority
  if (scheme? cs).isSome then ofText reference
  else
    match cs with
    | [] => .ok { base with fragment := none }
    | c :: rest =>
      if k.isSlash c then
        if rest.head?.any k.isSlash then ofText (base.scheme ++ ":" ++ String.ofList cs)
        else ofText (server ++ String.ofList cs)
      else if c = '?' then ofText (server ++ base.path ++ String.ofList cs)
      else if c = '#' then ofText (base.withoutFragment ++ String.ofList cs)
      else
        -- The reference stands in the place of what follows the last slash.
        let folder := (base.path.toList.reverse.dropWhile (· ≠ '/')).reverse
        ofText (server ++ String.ofList folder ++ String.ofList cs)

/-! ## Files -/

/-- The path of the file that an address names; none if it has a host or its path has no slash.
A drive gets a slash behind it. -/
def filePath? (u : Url) : Option String :=
  if u.host.isSome ∧ u.host ≠ some "localhost" then none
  else if u.path.toList.head? ≠ some '/' then none
  else
    let bytes := Percent.decode u.path.toList
    let path := Utf8.lossy bytes
    if 3 ≤ path.toList.length ∧ isDrive (path.toList.drop (path.toList.length - 2)) then
      some (path ++ "/")
    else some path

end Url

end FileListCache
