/-
  FileListCache.Http.Client

  Asking servers for documents. A client names itself in every request, sends the headers it was
  given, and follows redirects, to which it sends no credentials.
-/

import FileListCache.World
import FileListCache.Http.Body

namespace FileListCache.Http

/-- How requests are made. -/
structure Client where
  /-- What the program calls itself. -/
  userAgent : String := "filesdb/0.1.0"
  /-- More headers for every request. -/
  headers : List Header := []
  proxy : Option String := none
  /-- How many seconds a transfer may take. -/
  timeout : Option Nat := none
  deriving DecidableEq, Repr

namespace Client

/-- The headers of a request. A header that names the program replaces the client's own name, and
an empty name is not sent. -/
def requestHeaders (c : Client) : List Header :=
  let own := if c.userAgent = "" ∨ (headerValue? c.headers "user-agent").isSome then []
    else [("user-agent", c.userAgent)]
  own ++ c.headers.map fun h => (h.1.toLower, h.2)

/-- The request for an address. -/
def request (c : Client) (u : Url) : Request :=
  { scheme := u.scheme
    host := (u.host.getD "") ++ (u.port.map fun p => ":" ++ toString p).getD ""
    target := u.path ++ (u.query.map ("?" ++ ·)).getD ""
    headers := c.requestHeaders }

/-- The headers that are for the server a user had in mind, and for no other. -/
def credentials : List String := ["authorization", "cookie"]

/-- The client as it goes on to where a reply sends it. -/
def redirected (c : Client) : Client :=
  { c with headers := c.headers.filter fun h => !credentials.any (sameName h.1) }

/-- The statuses that send the client to another address. -/
def redirects : List Nat := [301, 302, 303, 307, 308]

/-- How many redirects are followed. -/
def mostRedirects : Nat := 10

/-- Asks for the document at an address and follows at most `left` redirects. -/
def send (h : Host) (c : Client) (left : Nat) (u : Url) : Attempt NetworkError Reply := do
  Address.check u.toText
  match ← World.ask h (c.request u) with
  | none => throw .unreachable
  | some reply =>
    if redirects.contains reply.status then
      match headerValue? reply.headers "location" with
      | none => throw .noLocation
      | some location =>
        match left with
        | 0 => throw .tooManyRedirects
        | left + 1 =>
          match u.join location with
          | .error _ => throw (.badLocation location)
          | .ok next => send h c.redirected left next
    else return reply

/-- Asks for the document at an address. -/
def get (h : Host) (c : Client) (u : Url) : Attempt NetworkError Reply :=
  c.send h mostRedirects u

end Client

end FileListCache.Http
