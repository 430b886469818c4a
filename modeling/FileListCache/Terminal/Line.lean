/-
  FileListCache.Terminal.Line

  What a user sees: lines on the two output streams, with colors if these are wanted.
-/

namespace FileListCache.Terminal

/-- Where a line is written: the output proper, or what is said about the run. -/
inductive Stream
  | output
  | remarks
  deriving DecidableEq, Repr

/-- A line for the user. Its text may itself hold line feeds. -/
structure Line where
  stream : Stream
  text : String
  deriving DecidableEq, Repr

/-- All that lines write to a stream. -/
def written (s : Stream) (lines : List Line) : String :=
  String.join ((lines.filter (·.stream = s)).map fun l => l.text ++ "\n")

/-! ## Colors -/

/-- The colors in use. -/
inductive Color
  | red
  | green
  | yellow
  | blue
  | magenta
  | cyan
  deriving DecidableEq, Repr

/-- The number by which terminals know the color. -/
def Color.number : Color → Nat
  | red => 31
  | green => 32
  | yellow => 33
  | blue => 34
  | magenta => 35
  | cyan => 36

/-- A text in a color, or as it is if colors are not wanted. -/
def paint (colors : Bool) (c : Color) (text : String) : String :=
  if colors then "\x1b[" ++ toString c.number ++ "m" ++ text ++ "\x1b[0m" else text

end FileListCache.Terminal
