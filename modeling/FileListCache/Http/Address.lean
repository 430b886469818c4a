/-
  FileListCache.Http.Address

  Which addresses a request can be made for: a scheme of the web and a well-formed host. What an
  address lacks is told apart from what is malformed in it.
-/

import FileListCache.Url

namespace FileListCache.Http

/-- Why a server could not be asked. -/
inductive NetworkError
  /-- Something in the address that requests cannot express. -/
  | malformed (reason : String)
  | noScheme (address : String)
  | unknownScheme (scheme : String)
  | unreachable
  | tooManyRedirects
  | noLocation
  | badLocation (location : String)
  | badLength
  deriving DecidableEq, Repr

/-- The sentence a user reads. -/
def NetworkError.message : NetworkError → String
  | malformed reason => "http: " ++ reason
  | noScheme address => "bad uri: " ++ address ++ " is missing scheme"
  | unknownScheme scheme => "bad uri: unknown scheme: " ++ scheme
  | unreachable => "Connection failed"
  | tooManyRedirects => "too many redirects"
  | noLocation => "protocol: missing a location header"
  | badLocation location => "protocol: location header is malformed: " ++ location
  | badLength => "protocol: content-length header not a number"

namespace Address

/-- How long an address may be, in characters. -/
def longest : Nat := 65534

/-- How long a scheme may be. -/
def longestScheme : Nat := 64

/-- The scheme of an address with two slashes behind the colon, and what follows them. -/
def scheme? (cs : List Char) : Option (String × List Char) :=
  match cs.dropWhile (· ≠ ':') with
  | ':' :: '/' :: '/' :: rest => some (String.ofList (cs.takeWhile (· ≠ ':')), rest)
  | _ => none

/-- Characters that may stand before the path. -/
def isAuthorityChar (c : Char) : Bool :=
  c.isAlphanum || "!$&'()*+,-.:;=?@[]_~%".toList.contains c

/-- What was seen of the part before the path. -/
structure Seen where
  colons : Nat := 0
  opened : Bool := false
  closed : Bool := false
  percent : Bool := false

/-- How many colons may stand in a row of groups. -/
def mostColons : Nat := 8

/-- Looks at one more character. -/
def Seen.look (s : Seen) (c : Char) : Except NetworkError Seen :=
  if !isAuthorityChar c then .error (.malformed "invalid uri character")
  else
    let bad : Except NetworkError Seen := .error (.malformed "invalid authority")
    match c with
    | ':' => if mostColons ≤ s.colons then bad else .ok { s with colons := s.colons + 1 }
    | '[' => if s.percent || s.opened then bad else .ok { s with opened := true }
    | ']' =>
      if !s.opened || s.closed then bad
      else .ok { s with closed := true, colons := 0, percent := false }
    | '@' => .ok { s with colons := 0, percent := false }
    | '%' => .ok { s with percent := true }
    | _ => .ok s

/-- Checks the part before the path and gives what follows it. -/
def authority (cs : List Char) : Except NetworkError (List Char) := do
  let isEnd (c : Char) : Bool := c = '/' || c = '?' || c = '#'
  let text := cs.takeWhile fun c => !isEnd c
  let seen ← text.foldlM Seen.look {}
  if seen.opened ≠ seen.closed ∨ 1 < seen.colons ∨ text.getLast? = some '@' ∨ seen.percent then
    throw (.malformed "invalid authority")
  return cs.dropWhile fun c => !isEnd c

/-- Checks that a request can be made for an address. -/
def check (address : String) : Except NetworkError Unit := do
  let cs := address.toList
  if longest < cs.length then throw (.malformed "uri too long")
  match scheme? cs with
  | some (scheme, rest) =>
    if longestScheme < scheme.length then throw (.malformed "scheme too long")
    let behind ← authority rest
    if behind.length = rest.length then throw (.malformed "invalid format")
    if scheme ≠ "http" ∧ scheme ≠ "https" then throw (.unknownScheme scheme)
  | none =>
    let behind ← authority cs
    if behind.isEmpty then throw (.noScheme address)
    else throw (.malformed "invalid format")

/-! ## Proxies -/

/-- The kinds of proxies. -/
def proxySchemes : List String := ["http", "https", "socks", "socks4", "socks4a", "socks5"]

/-- Characters of the path in an address, and of the question behind it. -/
def isPathChar (inQuery : Bool) (c : Char) : Bool :=
  let n := c.toNat
  0x7f ≤ n || n = 0x21 || (0x24 ≤ n && n ≤ 0x3b) || n = 0x3d ||
    if inQuery then 0x3f ≤ n else (0x40 ≤ n && n ≠ 0x60) || n = 0x22

/-- Whether what follows the host of an address is well formed. A fragment is not looked at. -/
def isPathText (cs : List Char) : Bool :=
  let cs := cs.takeWhile (· ≠ '#')
  (cs.takeWhile (· ≠ '?')).all (isPathChar false) &&
    ((cs.dropWhile (· ≠ '?')).drop 1).all (isPathChar true)

/-- Whether an address names a proxy: a host, of a known kind if one is given. -/
def isProxy (address : String) : Bool :=
  let cs := address.toList
  if longest < address.utf8ByteSize then false
  else
    match scheme? cs with
    | some (scheme, rest) =>
      proxySchemes.contains scheme.toLower &&
        match authority rest with
        | .ok behind => behind.length ≠ rest.length && isPathText behind
        | .error _ => false
    | none =>
      !cs.isEmpty && cs ≠ ['*'] &&
        match authority cs with
        | .ok behind => behind.isEmpty
        | .error _ => false

end Address

end FileListCache.Http
