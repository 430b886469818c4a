/-
  FileListCache.Archive.Header

  The header block of an archive member: 512 bytes with fields at fixed places. Numbers are octal
  text, with a binary form for large sizes, and a checksum guards the whole block.
-/

import FileListCache.IoError
import FileListCache.Text.Character
import FileListCache.Text.Utf8

namespace FileListCache.Archive

/-- The length of a header block, and what payloads are padded to a multiple of. -/
def blockSize : Nat := 512

/-- The bytes before the first zero byte. -/
def untilZero (bs : Bytes) : Bytes := bs.takeWhile (· ≠ 0)

/-- The value of digits in base eight. -/
def octalDigits? (cs : List Char) : Option Nat :=
  if cs.isEmpty then none
  else
    cs.foldl (fun n c => n.bind fun n =>
      if '0' ≤ c ∧ c ≤ '7' then some (8 * n + (c.toNat - '0'.toNat)) else none) (some 0)

/-- The value of octal text; a plus sign before it is allowed. -/
def octal? : List Char → Option Nat
  | '+' :: cs => octalDigits? cs
  | cs => octalDigits? cs

/-- A header block. -/
structure Header where
  bytes : Bytes
  deriving DecidableEq, Repr

namespace Header

/-- The bytes of a field. -/
def field (h : Header) (start count : Nat) : Bytes := (h.bytes.drop start).take count

/-- Whether every byte is zero, which marks the end of an archive. -/
def isZero (h : Header) : Bool := h.bytes.all (· = 0)

/-- Whether the header follows the standard that splits long names over two fields. -/
def isStandard (h : Header) : Bool :=
  h.field 257 6 = [0x75, 0x73, 0x74, 0x61, 0x72, 0x00] && h.field 263 2 = [0x30, 0x30]

/-- The name of the member. -/
def name (h : Header) : Bytes :=
  let last := untilZero (h.field 0 100)
  let first := untilZero (h.field 345 155)
  if h.isStandard && !first.isEmpty then first ++ 0x2f :: last else last

/-- The type of the member; zero stands for a regular file. -/
def kind (h : Header) : UInt8 :=
  match h.field 156 1 with
  | [0] | [] => 0x30
  | b :: _ => b

/-- Types of members that only extend the header of the next one: global and local attributes,
long names and long link targets. -/
def extensionKinds : Bytes := [0x67, 0x78, 0x4c, 0x4b]

/-- Whether the member counts as an entry of the archive. -/
def isEntry (h : Header) : Bool := !extensionKinds.contains h.kind

/-- The number that a field holds as octal text. -/
def octalField (h : Header) (label : String) (start count : Nat) : Except IoError Nat :=
  let text := untilZero (h.field start count)
  match Utf8.strict? text with
  | none => .error (.archive (.notText label (Utf8.lossy text) (Utf8.lossy h.name)))
  | some s =>
    match octal? (Text.trim s.toList) with
    | none => .error (.archive (.notOctal label s (Utf8.lossy h.name)))
    | some n => .ok n

/-- The checksum that the header states. -/
def statedSum (h : Header) : Except IoError Nat := do
  return (← h.octalField "cksum" 148 8) % Nat.pow 2 32

/-- The sum of all bytes, with blanks in the place of the checksum. -/
def sum (h : Header) : Nat :=
  let total (bs : Bytes) : Nat := bs.foldr (fun b n => b.toNat + n) 0
  total (h.field 0 148) + 8 * 0x20 + total (h.field 156 (blockSize - 156))

/-- The length of the member's payload. A set top bit marks a binary number, of which the last
eight bytes count. -/
def size (h : Header) : Except IoError Nat :=
  match h.field 124 12 with
  | b :: rest =>
    if 0x80 ≤ b.toNat then .ok (bigEndian (rest.drop 3)) else h.octalField "size" 124 12
  | [] => h.octalField "size" 124 12

end Header

end FileListCache.Archive
