/-
  FileListCache.IoError

  Everything that can go wrong while bytes are read or written, whoever notices it: the system,
  a decoder, the archive reader or the other end of a connection.
-/

import FileListCache.OsError
import FileListCache.Compression.Stream

namespace FileListCache

/-- What the archive reader found wrong. -/
inductive ArchiveFault
  | headerCutShort
  | checksum
  | gap
  | sizeOverflow
  | notOctal (field text member : String)
  | notText (field text member : String)
  deriving DecidableEq, Repr

/-- The sentence a user reads. -/
def ArchiveFault.message : ArchiveFault → String
  | headerCutShort => "failed to read entire block"
  | checksum => "archive header checksum mismatch"
  | gap => "unexpected EOF during skip"
  | sizeOverflow => "size overflow"
  | notOctal field text member =>
    "numeric field was not a number: " ++ text ++ " when getting " ++ field ++ " for " ++ member
  | notText field text member =>
    "numeric field did not have utf-8 text: " ++ text ++ " when getting " ++ field ++ " for "
      ++ member

/-- Why bytes could not be read or written. -/
inductive IoError
  | system (e : OsError)
  | zeroInName
  | notUtf8
  | stream (e : StreamError)
  | archive (e : ArchiveFault)
  | memberCutShort (present size : Nat)
  | membersReadTwice
  | peerGone
  | custom (text : String)
  deriving DecidableEq, Repr

/-- The kinds of errors that callers tell apart. -/
inductive IoKind
  | notFound
  | invalidInput
  | invalidData
  | unexpectedEof
  | other
  deriving DecidableEq, Repr

namespace StreamError

/-- The kind of a decoder's error: bad input by format, input that ends early, or neither. -/
def kind : StreamError → IoKind
  | gzipHeader | gzipField | gzipChecksum | deflateCorrupt => .invalidInput
  | bzip2Header | bzip2Corrupt | xzOptions => .invalidInput
  | xzFormat | xzCorrupt => .invalidData
  | gzipCutShort | deflateCutShort | bzip2CutShort | xzCutShort | zstdCutShort => .unexpectedEof
  | zstdMagic | zstdParameter | zstdWindow | zstdDictionaryMissing | zstdDictionaryCorrupt => .other
  | zstdCorrupt | zstdSize | zstdChecksum => .other

end StreamError

namespace IoError

/-- The sentence a user reads. -/
def message : IoError → String
  | system e => e.message
  | zeroInName => "file name contained an unexpected NUL byte"
  | notUtf8 => "stream did not contain valid UTF-8"
  | stream e => e.message
  | archive e => e.message
  | memberCutShort present size =>
    "entry truncated after " ++ toString present ++ " of " ++ toString size ++ " bytes"
  | membersReadTwice => "cannot call entries unless archive is at position 0"
  | peerGone => "Peer disconnected"
  | custom text => text

/-- The kind that callers tell errors apart by. -/
def kind : IoError → IoKind
  | system .missing => .notFound
  | system _ => .other
  | zeroInName => .invalidInput
  | notUtf8 => .invalidData
  | stream e => e.kind
  | archive _ | membersReadTwice | custom _ => .other
  | memberCutShort .. | peerGone => .unexpectedEof

/-- Whether the error says that the path named nothing. -/
def isMissing (e : IoError) : Bool := e = .system .missing

end IoError

end FileListCache
