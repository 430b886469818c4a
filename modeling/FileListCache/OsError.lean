/-
  FileListCache.OsError

  The reasons for which the operating system refuses a call, with the number and the sentence it
  gives for each.
-/

namespace FileListCache

/-- Why the operating system refused. -/
inductive OsError
  | missing
  | denied
  | notDirectory
  | isDirectory
  | invalid
  | full
  | readOnly
  | nameTooLong
  | notEmpty
  | tooManyLinks
  deriving DecidableEq, Repr

namespace OsError

/-- The system's number for the error. -/
def number : OsError → Nat
  | missing => 2
  | denied => 13
  | notDirectory => 20
  | isDirectory => 21
  | invalid => 22
  | full => 28
  | readOnly => 30
  | nameTooLong => 36
  | notEmpty => 39
  | tooManyLinks => 40

/-- The system's name for the error. -/
def name : OsError → String
  | missing => "ENOENT"
  | denied => "EACCES"
  | notDirectory => "ENOTDIR"
  | isDirectory => "EISDIR"
  | invalid => "EINVAL"
  | full => "ENOSPC"
  | readOnly => "EROFS"
  | nameTooLong => "ENAMETOOLONG"
  | notEmpty => "ENOTEMPTY"
  | tooManyLinks => "ELOOP"

/-- The system's sentence for the error. -/
def sentence : OsError → String
  | missing => "No such file or directory"
  | denied => "Permission denied"
  | notDirectory => "Not a directory"
  | isDirectory => "Is a directory"
  | invalid => "Invalid argument"
  | full => "No space left on device"
  | readOnly => "Read-only file system"
  | nameTooLong => "File name too long"
  | notEmpty => "Directory not empty"
  | tooManyLinks => "Too many levels of symbolic links"

/-- The sentence and the number, as read and write errors show them. -/
def message (e : OsError) : String := e.sentence ++ " (os error " ++ toString e.number ++ ")"

/-- The name and a sentence, as failed permission checks show them. -/
def named (e : OsError) : String :=
  e.name ++ ": " ++
    if e = tooManyLinks then "Too many symbolic links encountered" else e.sentence

end OsError

/-- Why the entries of a directory cannot be changed. -/
inductive Lock
  /-- The account may not write to the directory. -/
  | denied
  /-- The directory is on a file system that is not written to, nor are the files in it. -/
  | readOnly
  deriving DecidableEq, Repr

/-- The error that a change of the entries meets. -/
def Lock.error : Lock → OsError
  | denied => .denied
  | readOnly => .readOnly

end FileListCache
