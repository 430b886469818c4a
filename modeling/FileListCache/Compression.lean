/-
  FileListCache.Compression

  The compression of a file: recognised by its first bytes and undone by the decoder of its
  format. A file of no known format counts as not compressed.
-/

import FileListCache.Compression.Bzip2
import FileListCache.Compression.Gzip
import FileListCache.Compression.Xz
import FileListCache.Compression.Zstd

namespace FileListCache

/-- The ways in which a file may be compressed. -/
inductive Compression
  | plain
  | gzip
  | bzip2
  | xz
  | zstd
  deriving DecidableEq, Repr

namespace Compression

/-- How many bytes at the start of a file are enough to recognise its format. -/
def signatureLength : Nat := 6

/-- The bytes that a file of the format starts with. -/
def signature : Compression → Bytes
  | plain => []
  | gzip => [0x1f, 0x8b]
  | bzip2 => [0x42, 0x5a, 0x68]
  | xz => [0xfd, 0x37, 0x7a, 0x58, 0x5a, 0x00]
  | zstd => [0x28, 0xb5, 0x2f, 0xfd]

/-- The format of a file that starts with the given bytes. -/
def detect (start : Bytes) : Compression :=
  ([gzip, bzip2, xz, zstd].find? fun c => c.signature.isPrefixOf start).getD plain

/-- The name that messages use. -/
def name : Compression → String
  | plain => "none"
  | gzip => "gzip"
  | bzip2 => "bzip2"
  | xz => "xz"
  | zstd => "zstd"

/-- The compression with the given name. -/
def ofName? (s : String) : Option Compression :=
  [plain, gzip, bzip2, xz, zstd].find? fun c => c.name = s

/-- What a file with the given contents decodes to. -/
def decode (c : Compression) (contents : Bytes) : Decoded :=
  match c with
  | plain => ⟨contents, none⟩
  | gzip => Gzip.decode (Bytes.pack contents)
  | bzip2 => Bzip2.decode (Bytes.pack contents)
  | xz => Xz.decode (Bytes.pack contents)
  | zstd => Zstd.decode (Bytes.pack contents)

end Compression

end FileListCache
