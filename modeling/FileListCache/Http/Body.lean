/-
  FileListCache.Http.Body

  The body of a reply, taken out of the bytes that follow its head: in chunks, with a length that
  was announced, or up to the end of the connection.
-/

import FileListCache.Compression.Gzip
import FileListCache.IoError
import FileListCache.Text.Character
import FileListCache.Text.Count
import FileListCache.Http.Address
import FileListCache.Http.Message

namespace FileListCache.Http

/-- A body: its bytes in order, and the error that ended it early. -/
structure Body where
  bytes : Bytes
  failure : Option IoError := none
  deriving DecidableEq, Repr

namespace Body

/-- The bytes of one line and what follows it. -/
def line? : Bytes → Option (Bytes × Bytes)
  | [] => none
  | 13 :: 10 :: rest => some ([], rest)
  | b :: rest => (line? rest).map fun r => (b :: r.1, r.2)

/-- What follows a line is shorter. -/
theorem length_of_line? {bs l rest : Bytes} (h : line? bs = some (l, rest)) :
    rest.length < bs.length := by
  fun_induction line? bs generalizing l with
  | case1 => contradiction
  | case2 r =>
    cases h
    simp only [List.length_cons]
    omega
  | case3 b r _ ih =>
    obtain ⟨x, hx, he⟩ := Option.map_eq_some_iff.1 h
    cases he
    have := ih (l := x.1) hx
    simp only [List.length_cons]
    omega

/-- The length that the first line of a chunk states. -/
def chunkLength? (line : Bytes) : Option Nat :=
  (Utf8.strict? line).bind fun s =>
    let ds := Text.trim (s.toList.takeWhile (· ≠ ';'))
    if ds.isEmpty then none
    else ds.foldl (fun n c => n.bind fun n => (Url.Percent.digit? c).map (16 * n + ·)) (some 0)

/-- The content of chunks, up to the chunk without content. -/
def ofChunks (bs : Bytes) : Body :=
  match _hl : line? bs with
  | none => ⟨[], some .peerGone⟩
  | some (line, rest) =>
    match chunkLength? line with
    | none => ⟨[], some (.custom "protocol: chunk length cannot be read as a number")⟩
    | some 0 => ⟨[], none⟩
    | some n =>
      -- A chunk that is cut short is given as far as it came, also when only its end is missing.
      if rest.length < n + 2 then ⟨rest.take n, some .peerGone⟩
      else if (rest.drop n).take 2 ≠ [13, 10] then
        ⟨rest.take n, some (.custom "protocol: chunk expected crlf as next character")⟩
      else
        let more := ofChunks (rest.drop (n + 2))
        ⟨rest.take n ++ more.bytes, more.failure⟩
termination_by bs.length
decreasing_by
  have := length_of_line? _hl
  simp only [List.length_drop]
  omega

/-- The first `length` bytes, all of which must be there. -/
def ofLength (length : Nat) (bs : Bytes) : Body :=
  ⟨bs.take length, if bs.length < length then some .peerGone else none⟩

/-- A body that is sent compressed. -/
def decompressed (b : Body) : Body :=
  let d := Gzip.decode (Bytes.pack b.bytes)
  ⟨d.bytes, b.failure <|> d.failure.map .stream⟩

end Body

namespace Reply

/-- Whether the body comes in chunks. -/
def isChunked (r : Reply) : Bool :=
  match headerValue? r.headers "transfer-encoding" with
  | some value => (value.splitOn ",").any fun s => sameName (Text.trimmed s) "chunked"
  | none => false

/-- The body as it was sent. -/
def rawBody (r : Reply) : Except NetworkError Body :=
  if r.status = 204 ∨ r.status = 304 then .ok ⟨[], none⟩
  else if r.isChunked then .ok (Body.ofChunks r.payload)
  else
    match headerValue? r.headers "content-length" with
    | none => .ok ⟨r.payload, none⟩
    | some value =>
      match Text.count? value with
      | some n => .ok (Body.ofLength n r.payload)
      | none => .error .badLength

/-- The body of a reply. -/
def body (r : Reply) : Except NetworkError Body := do
  let b ← r.rawBody
  return if headerValue? r.headers "content-encoding" = some "gzip" then b.decompressed else b

/-- The length that the reply states, or zero. -/
def statedLength (r : Reply) : Nat :=
  ((headerValue? r.headers "content-length").bind Text.count?).getD 0

end Reply

end FileListCache.Http
