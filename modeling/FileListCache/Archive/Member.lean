/-
  FileListCache.Archive.Member

  The members of an archive in order, read from a stream of bytes that an error may end early.
  Members are taken as they stand: headers that only extend the next one are members too.
-/

import FileListCache.Archive.Header

namespace FileListCache.Archive

/-- What a reader of an archive gets: bytes in order, and the error that ended them early. -/
structure Stream where
  bytes : Bytes
  failure : Option IoError := none
  deriving DecidableEq, Repr

namespace Stream

/-- The stream after its first `count` bytes. -/
def drop (s : Stream) (count : Nat) : Stream := { s with bytes := s.bytes.drop count }

/-- Goes on behind `count` bytes that must be there. -/
def skip (s : Stream) (count : Nat) : Except IoError Stream :=
  if count ≤ s.bytes.length then .ok (s.drop count)
  else .error (s.failure.getD (.archive .gap))

end Stream

/-- A member: its header, the length it states, and the part of its payload that could be read. -/
structure Member where
  header : Header
  size : Nat
  payload : Bytes
  /-- The error that ended the payload early. -/
  failure : Option IoError := none
  deriving DecidableEq, Repr

namespace Member

/-- How many zeros follow a payload of the given length. -/
def paddingOf (length : Nat) : Nat := (blockSize - length % blockSize) % blockSize

/-- Whether all of the payload could be read. -/
def isWhole (m : Member) : Bool := m.payload.length = m.size

/-- The bytes that stand for the member in an archive. -/
def bytes (m : Member) : Bytes :=
  m.header.bytes ++ m.payload ++ List.replicate (paddingOf m.payload.length) 0

end Member

/-- The largest position in an archive. -/
def lastPosition : Nat := Nat.pow 2 64 - 1

/-- Reads the header at the start of a stream; there is none at the end of the archive. -/
def readHeader (s : Stream) : Except IoError (Option Header) :=
  if blockSize ≤ s.bytes.length then
    let h : Header := ⟨s.bytes.take blockSize⟩
    if h.isZero then .ok none else .ok (some h)
  else
    match s.failure with
    | some e => .error e
    | none => if s.bytes.isEmpty then .ok none else .error (.archive .headerCutShort)

/-- The size of a member whose header is in order and ends at byte `position`. -/
def checkHeader (h : Header) (position : Nat) : Except IoError Nat := do
  if (← h.statedSum) ≠ h.sum % Nat.pow 2 32 then throw (.archive .checksum)
  let size ← h.size
  if lastPosition < size + (blockSize - 1) then throw (.archive .sizeOverflow)
  if lastPosition < position + size + Member.paddingOf size then throw (.archive .sizeOverflow)
  return size

/-- The member with a checked header, read from the stream after the header. -/
def memberOf (h : Header) (size : Nat) (s : Stream) : Member :=
  ⟨h, size, s.bytes.take size, if s.bytes.length < size then s.failure else none⟩

/-- A header takes a whole block of the stream. -/
theorem blockSize_le_of_readHeader {s : Stream} {h : Header}
    (hr : readHeader s = .ok (some h)) : blockSize ≤ s.bytes.length := by
  unfold readHeader at hr
  split at hr
  · assumption
  · split at hr
    · contradiction
    · split at hr <;> cases hr

/-- What is left behind skipped bytes is no longer than the stream was. -/
theorem Stream.length_le_of_skip {s rest : Stream} {count : Nat}
    (hs : s.skip count = .ok rest) : rest.bytes.length ≤ s.bytes.length := by
  unfold Stream.skip at hs
  split at hs
  · cases hs
    simp [Stream.drop]
  · cases hs

/-- The members from byte `position` of an archive on, and the error that ends them early. -/
def membersFrom (position : Nat) (s : Stream) : List Member × Option IoError :=
  match _hr : readHeader s with
  | .error e => ([], some e)
  | .ok none => ([], none)
  | .ok (some h) =>
    match checkHeader h (position + blockSize) with
    | .error e => ([], some e)
    | .ok size =>
      -- The member is given even if the stream ends inside of it.
      let member := memberOf h size (s.drop blockSize)
      let length := size + Member.paddingOf size
      match _hs : (s.drop blockSize).skip length with
      | .error e => ([member], some e)
      | .ok rest =>
        let (members, stop) := membersFrom (position + blockSize + length) rest
        (member :: members, stop)
termination_by s.bytes.length
decreasing_by
  have h1 := blockSize_le_of_readHeader _hr
  have h2 := Stream.length_le_of_skip _hs
  simp only [Stream.drop, List.length_drop, blockSize] at h1 h2
  omega

/-- The members of an archive, and the error that ends them early. -/
def members (s : Stream) : List Member × Option IoError := membersFrom 0 s

/-- The zeros at the end of an archive. -/
def ending : Bytes := List.replicate (2 * blockSize) 0

/-- The archive that consists of the given members. -/
def bytesOf (ms : List Member) : Bytes := (ms.map Member.bytes).flatten ++ ending

end FileListCache.Archive
