/-
  FileListCache.Compression.Gzip

  Gzip files: one or more members, each a header, a deflate stream and a trailer that holds the
  check and the length of what the member decodes to. Anything after a member is another member.
-/

import FileListCache.Compression.Stream
import FileListCache.Compression.Checksum
import FileListCache.Compression.Deflate

namespace FileListCache.Gzip

/-- The longest file name or comment a header may hold. -/
def longestField : Nat := 65535

/-- The byte after a zero-terminated text that starts at `pos`. -/
def afterText (data : ByteArray) (pos : Nat) : Except StreamError Nat :=
  go pos (data.size - pos)
where
  /-- Looks for the terminator among the `left` bytes from `at_`. -/
  go (at_ : Nat) : Nat → Except StreamError Nat
    | 0 => .error .gzipCutShort
    | left + 1 =>
      if data[at_]? = some 0 then .ok (at_ + 1)
      else if longestField ≤ at_ + 1 - pos then .error .gzipField
      else go (at_ + 1) left

/-- Reads a member's header from byte `start` and returns the byte after it. -/
def header (data : ByteArray) (start : Nat) : Except StreamError Nat := do
  match slice? data start 10 with
  | some [id1, id2, method, flags, _, _, _, _, _, _] =>
    if id1 ≠ 0x1f ∨ id2 ≠ 0x8b ∨ method ≠ 8 ∨ flags &&& 0xe0 ≠ 0 then .error .gzipHeader
    else
      -- The optional fields follow in this order: extra, name, comment, check of the header.
      let pos := start + 10
      let pos ←
        if flags &&& 4 ≠ 0 then
          match littleEndianAt? data pos 2 with
          | some n => if pos + 2 + n ≤ data.size then pure (pos + 2 + n) else .error .gzipCutShort
          | none => .error .gzipCutShort
        else pure pos
      let pos ← if flags &&& 8 ≠ 0 then afterText data pos else pure pos
      let pos ← if flags &&& 16 ≠ 0 then afterText data pos else pure pos
      if flags &&& 2 ≠ 0 then
        match littleEndianAt? data pos 2 with
        | none => .error .gzipCutShort
        | some stored =>
          if stored = (Checksum.crc32 (data.extract start pos)).toNat % 65536 then return pos + 2
          else .error .gzipChecksum
      else return pos
  | _ => .error .gzipCutShort

/-- Checks a member's trailer at byte `pos` against the member's content. -/
def trailer (data : ByteArray) (pos : Nat) (content : ByteArray) : Except StreamError Nat :=
  match littleEndianAt? data pos 4, littleEndianAt? data (pos + 4) 4 with
  | some check, some length =>
    let sum := (Checksum.crc32 content).toNat
    if check = sum ∧ length = content.size % Nat.pow 2 32 then .ok (pos + 8)
    else .error .gzipChecksum
  | _, _ => .error .gzipCutShort

/-- Decodes the members from byte `start` on, after the output `out`. -/
def members (data : ByteArray) (start : Nat) (out : ByteArray) : Decoded :=
  match header data start with
  | .error e => ⟨Bytes.ofPacked out, some e⟩
  | .ok body =>
    match Deflate.decode data body with
    | .error (stop, content) =>
      ⟨Bytes.ofPacked (out ++ content), some
        (match stop with
        | .exhausted => .deflateCutShort
        | .corrupt => .deflateCorrupt)⟩
    | .ok (content, pos) =>
      match trailer data pos content with
      | .error e => ⟨Bytes.ofPacked (out ++ content), some e⟩
      | .ok next =>
        if data.size ≤ next then ⟨Bytes.ofPacked (out ++ content), none⟩
        else if start < next then members data next (out ++ content)
        else ⟨Bytes.ofPacked (out ++ content), some .gzipHeader⟩
termination_by data.size - start

/-- Decodes a whole gzip file. -/
def decode (data : ByteArray) : Decoded := members data 0 ByteArray.empty

end FileListCache.Gzip
