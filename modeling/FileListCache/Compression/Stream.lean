/-
  FileListCache.Compression.Stream

  What a decoder hands to its reader: the bytes it could release, in order, and the cause that
  ended the stream early if there was one. A reader meets the cause only when it asks for more
  than the bytes released.
-/

import FileListCache.Bytes

namespace FileListCache

/-- Why a compressed stream ended early. -/
inductive StreamError
  | gzipHeader
  | gzipField
  | gzipChecksum
  | gzipCutShort
  | deflateCorrupt
  | deflateCutShort
  | bzip2Header
  | bzip2Corrupt
  | bzip2CutShort
  | xzFormat
  | xzOptions
  | xzCorrupt
  | xzCutShort
  | zstdMagic
  | zstdParameter
  | zstdWindow
  | zstdDictionaryMissing
  | zstdDictionaryCorrupt
  | zstdCorrupt
  | zstdSize
  | zstdChecksum
  | zstdCutShort
  deriving DecidableEq, Repr

namespace StreamError

/-- The sentence a user reads. -/
def message : StreamError → String
  | gzipHeader => "invalid gzip header"
  | gzipField => "gzip header field too long"
  | gzipChecksum => "corrupt gzip stream does not have a matching checksum"
  | gzipCutShort => "unexpected end of file"
  | deflateCorrupt => "corrupt deflate stream"
  | deflateCutShort => "incomplete deflate stream"
  | bzip2Header => "bzip2: bz2 header missing"
  | bzip2Corrupt => "bzip2: invalid data"
  | bzip2CutShort => "decompression not finished but EOF reached"
  | xzFormat => "stream/file format not recognized"
  | xzOptions => "invalid options"
  | xzCorrupt => "lzma data error"
  | xzCutShort => "premature eof"
  | zstdMagic => "Unknown frame descriptor"
  | zstdParameter => "Unsupported frame parameter"
  | zstdWindow => "Frame requires too much memory for decoding"
  | zstdDictionaryMissing => "Dictionary mismatch"
  | zstdDictionaryCorrupt => "Dictionary is corrupted"
  | zstdCorrupt => "Data corruption detected"
  | zstdSize => "Src size is incorrect"
  | zstdChecksum => "Restored data doesn't match checksum"
  | zstdCutShort => "incomplete frame"

end StreamError

/-- The outcome of decoding a whole file: the bytes released and what ended them early. -/
structure Decoded where
  bytes : Bytes
  failure : Option StreamError := none
  deriving DecidableEq, Repr

namespace Decoded

/-- A stream whose decoder reached its end and found everything in order. -/
def IsClean (d : Decoded) : Prop := d.failure = none

/-- The bytes of a stream that was read to its end without an error. -/
def toExcept (d : Decoded) : Except StreamError Bytes :=
  match d.failure with
  | none => .ok d.bytes
  | some e => .error e

/-- Puts bytes released earlier before a stream. -/
def after (earlier : ByteArray) (d : Decoded) : Decoded :=
  { d with bytes := Bytes.ofPacked earlier ++ d.bytes }

end Decoded

end FileListCache
