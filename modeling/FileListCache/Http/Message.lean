/-
  FileListCache.Http.Message

  Requests and replies as they travel: what is asked for and what comes back, head and body. The
  other ends of the connections are known only by what they answer.
-/

import FileListCache.Bytes

namespace FileListCache.Http

/-- A header line: name and value. -/
abbrev Header := String × String

/-- A request for a document. -/
structure Request where
  method : String := "GET"
  scheme : String
  host : String
  target : String
  headers : List Header
  deriving DecidableEq, Repr

/-- What a server sends back: a status, headers in order, and all bytes up to the end of the
connection. -/
structure Reply where
  status : Nat
  headers : List Header
  payload : Bytes
  deriving DecidableEq, Repr

/-- The servers that can be asked. What they answer may depend on what they were asked before. -/
structure Servers where
  /-- The reply to a request that comes after others; none where no server can be reached. -/
  reply : List Request → Request → Option Reply

/-- Servers that answer a request alike whenever they are asked. -/
def Servers.steady (f : Request → Option Reply) : Servers := ⟨fun _ => f⟩

instance : Coe (Request → Option Reply) Servers := ⟨Servers.steady⟩

/-- Whether two header names are the same; case does not matter. -/
def sameName (a b : String) : Bool := a.toLower = b.toLower

/-- The value of the first header with the given name. -/
def headerValue? (headers : List Header) (name : String) : Option String :=
  (headers.find? fun h => sameName h.1 name).map (·.2)

end FileListCache.Http
