import FileListCache.Archive.Error
import FileListCache.Archive.Header
import FileListCache.Archive.Member
import FileListCache.Archive.Opened
import FileListCache.ByteCount
import FileListCache.Bytes
import FileListCache.CommandError
import FileListCache.CommandLine.Arguments
import FileListCache.CommandLine.Option
import FileListCache.CommandLine.UsageError
import FileListCache.Compression
import FileListCache.Compression.Bits
import FileListCache.Compression.Bzip2
import FileListCache.Compression.Checksum
import FileListCache.Compression.Deflate
import FileListCache.Compression.Gzip
import FileListCache.Compression.Lzma
import FileListCache.Compression.PrefixCode
import FileListCache.Compression.Stream
import FileListCache.Compression.Xz
import FileListCache.Compression.Zstd
import FileListCache.Compression.Zstd.Literals
import FileListCache.Compression.Zstd.Sequences
import FileListCache.Compression.Zstd.StateCode
import FileListCache.ConfigError
import FileListCache.Decimal
import FileListCache.Diagnostic
import FileListCache.Disk
import FileListCache.Download
import FileListCache.DownloadError
import FileListCache.Event
import FileListCache.Fetch
import FileListCache.FileError
import FileListCache.Files
import FileListCache.HostError
import FileListCache.Http.Address
import FileListCache.Http.Body
import FileListCache.Http.Client
import FileListCache.Http.HeaderLine
import FileListCache.Http.Message
import FileListCache.IoError
import FileListCache.Json
import FileListCache.Log
import FileListCache.Main
import FileListCache.MirrorList.Line
import FileListCache.MirrorList.Reader
import FileListCache.OsError
import FileListCache.Path
import FileListCache.PathNotation
import FileListCache.Program
import FileListCache.Repository
import FileListCache.Settings
import FileListCache.Sync
import FileListCache.SyncError
import FileListCache.Terminal.Board
import FileListCache.Terminal.Line
import FileListCache.Terminal.Message
import FileListCache.Text.Character
import FileListCache.Text.Count
import FileListCache.Text.Utf8
import FileListCache.Text.WordTable
import FileListCache.Toml.Document
import FileListCache.Toml.Quoted
import FileListCache.Toml.Scalar
import FileListCache.Toml.Value
import FileListCache.Transcode
import FileListCache.Tree
import FileListCache.Url
import FileListCache.Url.Host
import FileListCache.Url.Percent
import FileListCache.Url.Punycode
import FileListCache.World
import FileListCache.Proofs.Attempt
import FileListCache.Proofs.Appending
import FileListCache.Proofs.Paths
import FileListCache.Proofs.History
import FileListCache.Proofs.Writing
import FileListCache.Proofs.Entries
import FileListCache.Proofs.Copying
import FileListCache.Proofs.Rewriting
import FileListCache.Proofs.Replacement
import FileListCache.Proofs.Names
import FileListCache.Proofs.Fetching
import FileListCache.Proofs.Snapshots
import FileListCache.Proofs.Rounds
import FileListCache.Proofs.Runs
import FileListCache.Proofs.Results
import FileListCache.Proofs.Servers
import FileListCache.Proofs.Sections
import FileListCache.Proofs.Room
import FileListCache.Proofs.Repetition
import FileListCache.Proofs.Corruption
import FileListCache.Proofs.Cuts
import FileListCache.Proofs.Cuts.Gzip
import FileListCache.Proofs.Cuts.Bzip2
import FileListCache.Proofs.Cuts.Lzma
import FileListCache.Proofs.Cuts.Xz
import FileListCache.Proofs.Cuts.Zstd
import FileListCache.Proofs.Truncation
import FileListCache.Proofs.Utterances
import FileListCache.Proofs.Stories
import FileListCache.Proofs.Coupling
import FileListCache.Proofs.Twins
import FileListCache.Proofs.Parallels
import FileListCache.Proofs.Leftovers
import FileListCache.Proofs.Isolation
import FileListCache.Proofs.Footprints
import FileListCache.Proofs.Reach
import FileListCache.Proofs.Confinement
import FileListCache.Proofs.Characters
import FileListCache.Proofs.Printing
import FileListCache.Proofs.Splicing
import FileListCache.Proofs.Preparation
import FileListCache.Proofs.Verdict
import FileListCache.Proofs.Layers
import FileListCache.Proofs.Options
import FileListCache.Proofs.Quoting
import FileListCache.Proofs.Documents
import FileListCache.Proofs.Storing
import FileListCache.Proofs.Wholeness
import FileListCache.Proofs.Vacancy
import FileListCache.Proofs.Fallback
import FileListCache.Proofs.Templates
import FileListCache.Proofs.Lines
import FileListCache.Proofs.Requests
import FileListCache.Proofs.Handing
import FileListCache.Proofs.Reports
import FileListCache.Proofs.Remains
import FileListCache.Proofs.Tokens
import FileListCache.Proofs.Selection
import FileListCache.Proofs.Courses
import FileListCache.Proofs.Surfacing
import FileListCache.Proofs.Blame
import FileListCache.Proofs.Removal
import FileListCache.Proofs.Rendering
